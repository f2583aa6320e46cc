/-!
# Totals

The total of a list of numbers.  Sizes, rounds and bytes are counted by adding up what their parts
contribute, and all that is needed to know is how a total splits along the list.
-/

namespace Datalog

/-- The sum of the numbers in a list. -/
def total : List Nat → Nat
  | [] => 0
  | n :: ns => n + total ns

@[simp] theorem total_nil : total [] = 0 := rfl

@[simp] theorem total_cons (n : Nat) (ns : List Nat) : total (n :: ns) = n + total ns := rfl

@[simp] theorem total_append (ms ns : List Nat) : total (ms ++ ns) = total ms + total ns := by
  induction ms with
  | nil => simp
  | cons m ms ih => simp [ih, Nat.add_assoc]

/-- The order does not matter. -/
theorem total_perm {ms ns : List Nat} (h : ms.Perm ns) : total ms = total ns := by
  induction h with
  | nil => rfl
  | cons m _ ih => rw [total_cons, total_cons, ih]
  | swap m n ms => rw [total_cons, total_cons, total_cons, total_cons, Nat.add_left_comm]
  | trans _ _ ih₁ ih₂ => exact ih₁.trans ih₂

theorem total_map_le {α : Type} {f g : α → Nat} {l : List α} (h : ∀ a ∈ l, f a ≤ g a) :
    total (l.map f) ≤ total (l.map g) := by
  induction l with
  | nil => exact Nat.le_refl 0
  | cons a l ih =>
    exact Nat.add_le_add (h a List.mem_cons_self) (ih fun b hb => h b (List.mem_cons_of_mem a hb))

/-- Adding up lengths is counting what the lists have together. -/
theorem total_map_length {α β : Type} (l : List α) (f : α → List β) :
    total (l.map fun a => (f a).length) = (l.flatMap f).length := by
  induction l with
  | nil => rfl
  | cons a l ih => rw [List.map_cons, total_cons, ih, List.flatMap_cons, List.length_append]

end Datalog
