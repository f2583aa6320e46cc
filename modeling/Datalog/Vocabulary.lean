import Datalog.Table

/-!
# Vocabularies

A vocabulary collects the distinct names that occur somewhere, in the order of their first
occurrence.  Names are compared by the numbers of their characters, from left to right; this is
also the order of their bytes in UTF-8.
-/

namespace Datalog

/-- Distinct names, in the order of their first occurrence. -/
abbrev Vocabulary := List String

namespace Vocabulary

/-- Add a name, unless it is there already. -/
def add (v : Vocabulary) (name : String) : Vocabulary := arrive v name

/-- Add names one after the other. -/
def addAll (v : Vocabulary) (names : List String) : Vocabulary := names.foldl add v

end Vocabulary

/-- Names in ascending order, repeated ones kept. -/
def ascending (names : List String) : List String := names.mergeSort fun a b => decide (a ≤ b)

/-- Names in descending order, repeated ones kept. -/
def descending (names : List String) : List String := names.mergeSort fun a b => decide (b ≤ a)

end Datalog
