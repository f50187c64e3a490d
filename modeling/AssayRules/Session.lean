import AssayRules.Marking

/-!
# Sessions

A laboratory keeps one store of formulas for as long as it works, and asks for one thing after
another: to read a formula, to look one up, to mark a table. Every **request** gets an
**answer**, and leaves a store for the request that comes next.

A request that fails is answered like any other, and leaves the store as it was: a text that
is no formula leaves no trace, and neither does a table without a column of variables, as no
formula is read for it.
-/

namespace AssayRules

/-- **What may be asked for.** -/
inductive Request where
  /-- The entry of a text, made now if there is none. -/
  | fetch (text : Text)
  /-- The entry of a text, if there is one. -/
  | find (text : Text)
  /-- How many formulas are stored. -/
  | size
  /-- To forget all entries. -/
  | clear
  /-- To mark a table by rules. -/
  | mark (rules : List Rule) (table : Table)
  /-- To mark a table by those of the rules that apply to it. -/
  | markApplicable (rules : List Rule) (table : Table) (tableId? : Option Text)
deriving DecidableEq, Repr

/-- **What is answered.** -/
inductive Answer where
  /-- An entry of the store. -/
  | entry (entry : StoredFormula)
  /-- The text has no entry. -/
  | absent
  /-- The text is no formula. -/
  | malformed (cause : Malformed)
  /-- How many formulas are stored. -/
  | size (n : Nat)
  /-- The entries are forgotten. -/
  | cleared
  /-- The report on a table. -/
  | report (report : Report)
  /-- The table cannot be read. -/
  | refused (error : TableError)

namespace Session

/-- The answer to marking a table, and the store afterwards. A table that cannot be read
leaves the store as it was. -/
def ofMark (store : FormulaStore) :
    Except TableError (Report × FormulaStore) → Answer × FormulaStore
  | .ok (report, store') => (.report report, store')
  | .error error => (.refused error, store)

/-- **Answering one request**: the answer, and the store afterwards. -/
def perform (settings : Settings) (store : FormulaStore) : Request → Answer × FormulaStore
  | .fetch text =>
    match store.fetch text with
    | .ok (entry, store') => (.entry entry, store')
    | .error cause => (.malformed cause, store)
  | .find text =>
    match store.find? text with
    | some entry => (.entry entry, store)
    | none => (.absent, store)
  | .size => (.size store.size, store)
  | .clear => (.cleared, store.clear)
  | .mark rules table => ofMark store (mark settings rules table store)
  | .markApplicable rules table tableId? =>
    ofMark store (markApplicable settings rules table tableId? store)

/-- The store once some requests have been answered, beginning without entries. -/
def storeAfter (settings : Settings) (requests : List Request) : FormulaStore :=
  requests.foldl (fun store request => (perform settings store request).2) .empty

end Session

end AssayRules
