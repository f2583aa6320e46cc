import Datalog.Program
import Datalog.Proofs.Join
import Datalog.Proofs.Table
import Mathlib.Data.List.DropRight

/-!
# Programs that batches can build

Every program that comes about by adding batches, accepted or refused, is consistent: its clauses
pass the checks, and its catalog has exactly the predicates that occur, each with the arity of all
its occurrences (`Program.Reachable.valid`).

A refused batch leaves no trace (`Program.extend_error`).  The invariant for this says that the
catalog, cut to its former length and with the places of new clauses dropped, is the former catalog:
it holds of a catalog into which nothing has been entered, and every entry keeps it.
-/

namespace Datalog

namespace Table

variable {κ ν : Type} [DecidableEq κ]

/-- An update that only adds what is dropped again does not show in the older entries. -/
theorem take_map_upsertEntries {w : ν → ν} {k : κ} {f : Option ν → ν}
    (hf : ∀ v, w (f (some v)) = w v) {es : List (κ × ν)} {n : Nat} (hn : n ≤ es.length) :
    ((upsertEntries k f es).take n).map (fun e => (e.1, w e.2)) =
      (es.take n).map fun e => (e.1, w e.2) := by
  induction es generalizing n with
  | nil =>
    have hzero : n = 0 := Nat.le_zero.mp hn
    rw [hzero, List.take_zero, List.take_zero]
  | cons e es ih =>
    cases n with
    | zero => rw [List.take_zero, List.take_zero]
    | succ n =>
      have hn' : n ≤ es.length := Nat.le_of_succ_le_succ hn
      rw [upsertEntries]
      split
      · next hk =>
        rw [List.take_succ_cons, List.take_succ_cons, List.map_cons, List.map_cons, hf, hk]
      · rw [List.take_succ_cons, List.take_succ_cons, List.map_cons, List.map_cons, ih hn']

theorem mem_upsertEntries {k : κ} {f : Option ν → ν} {es : List (κ × ν)} {e : κ × ν}
    (h : e ∈ upsertEntries k f es) : e ∈ es ∨ e.2 = f none ∨ ∃ e' ∈ es, e.2 = f (some e'.2) := by
  induction es with
  | nil => exact Or.inr (Or.inl (by rw [List.mem_singleton.mp h]))
  | cons e' es ih =>
    rw [upsertEntries] at h
    split at h
    · rcases List.mem_cons.mp h with rfl | h
      · exact Or.inr (Or.inr ⟨e', List.mem_cons_self, rfl⟩)
      · exact Or.inl (List.mem_cons_of_mem e' h)
    · rcases List.mem_cons.mp h with rfl | h
      · exact Or.inl List.mem_cons_self
      · rcases ih h with hold | hnew | ⟨e'', he'', hupd⟩
        · exact Or.inl (List.mem_cons_of_mem e' hold)
        · exact Or.inr (Or.inl hnew)
        · exact Or.inr (Or.inr ⟨e'', List.mem_cons_of_mem e' he'', hupd⟩)

end Table

namespace Clause

/-- A fact has no variables, and a rule binds those of its head. -/
def Safe : Clause → Prop
  | .fact a => a.vars = []
  | .rule r => r.RangeRestricted

theorem check_eq_ok_iff {c : Clause} : c.check = .ok () ↔ c.Safe := by
  cases c with
  | fact a =>
    unfold check Safe
    cases hvars : a.vars <;> simp [hvars]
  | rule r =>
    have hnone : (r.head.vars.find? fun x => x ∉ r.bodyVars) = none ↔ r.RangeRestricted := by
      simp [Rule.RangeRestricted, List.find?_eq_none]
    rw [Safe, ← hnone, check]
    cases r.head.vars.find? fun x => x ∉ r.bodyVars <;> simp

theorem head_mem_atoms (c : Clause) : c.head ∈ c.atoms := by
  cases c with
  | fact a => exact List.mem_singleton.mpr rfl
  | rule r => exact List.mem_cons_self

end Clause

namespace Catalog

/-- The arity that a catalog has for a predicate. -/
def arity? (catalog : Catalog) (name : Predicate) : Option Nat :=
  (Table.find? catalog name).map Signature.arity

/-- All places are below a bound. -/
def Below (bound : Nat) (catalog : Catalog) : Prop :=
  ∀ e ∈ catalog.entries, ∀ place ∈ e.2.facts ++ e.2.rules, place < bound

/-! ## What is entered can be withdrawn -/

/-- Taking back what was entered gives the former catalog. -/
structure Restorable (base : Nat) (former catalog : Catalog) : Prop where
  le : former.entries.length ≤ catalog.entries.length
  withdraw : catalog.withdraw former.entries.length base = former

/-- Places below the bound stay. -/
theorem dropFrom_of_below {base : Nat} {places : List Nat} (h : ∀ place ∈ places, place < base) :
    Signature.dropFrom base places = places := by
  refine List.rdropWhile_eq_self_iff.mpr fun hne => ?_
  rw [decide_eq_true_iff, Nat.not_le]
  exact h _ (List.getLast_mem hne)

/-- A place at or past the bound is dropped from the end. -/
theorem dropFrom_concat {base place : Nat} (h : base ≤ place) (places : List Nat) :
    Signature.dropFrom base (places ++ [place]) = Signature.dropFrom base places :=
  List.rdropWhile_concat_pos _ _ _ (decide_eq_true h)

theorem Restorable.refl {base : Nat} {catalog : Catalog} (h : Below base catalog) :
    Restorable base catalog catalog := by
  refine ⟨le_refl _, ?_⟩
  unfold Catalog.withdraw Table.truncate Table.mapValues
  rw [List.take_length]
  congr 1
  conv_rhs => rw [← List.map_id catalog.entries]
  apply List.map_congr_left
  intro e he
  have hkept : e.2.withdrawFrom base = e.2 := by
    unfold Signature.withdrawFrom
    rw [dropFrom_of_below, dropFrom_of_below]
    · exact fun place hplace => h e he place (List.mem_append_right _ hplace)
    · exact fun place hplace => h e he place (List.mem_append_left _ hplace)
  rw [hkept]
  rfl

theorem Restorable.upsert {base : Nat} {former catalog : Catalog}
    (h : Restorable base former catalog) (name : Predicate) {f : Option Signature → Signature}
    (hf : ∀ s, (f (some s)).withdrawFrom base = s.withdrawFrom base) :
    Restorable base former (catalog.upsert name f) := by
  have hlength : ∀ es : List (Predicate × Signature),
      es.length ≤ (Table.upsertEntries name f es).length := by
    intro es
    have hkeys := congrArg List.length (Table.keys_upsertEntries name f es)
    rw [List.length_map] at hkeys
    have hprefix := (prefix_arrive (es.map Prod.fst) name).length_le
    rw [List.length_map] at hprefix
    omega
  refine ⟨h.le.trans (hlength _), ?_⟩
  refine Eq.trans ?_ h.withdraw
  unfold Catalog.withdraw Table.truncate Table.mapValues
  exact congrArg Table.mk (Table.take_map_upsertEntries hf h.le)

theorem Restorable.insertNew {base : Nat} {former catalog : Catalog}
    (h : Restorable base former catalog) (name : Predicate) (s : Signature) :
    Restorable base former (catalog.insertNew name s) := h.upsert name fun _ => rfl

theorem Restorable.record {base place : Nat} {former catalog : Catalog}
    (h : Restorable base former catalog) (hplace : base ≤ place) (c : Clause) :
    Restorable base former (record place c catalog) := by
  refine h.upsert _ fun s => ?_
  cases c with
  | fact a => simp [Signature.record, Signature.withdrawFrom, dropFrom_concat hplace]
  | rule r => simp [Signature.record, Signature.withdrawFrom, dropFrom_concat hplace]

theorem finalState_declare (a : Atom) (catalog : Catalog) :
    finalState (declare a catalog) = catalog ∨
      finalState (declare a catalog) = catalog.insertNew a.predicate ⟨a.arity, [], []⟩ := by
  unfold declare
  split
  · exact Or.inr rfl
  · split
    · exact Or.inl rfl
    · exact Or.inl rfl

theorem Restorable.declare {base : Nat} {former catalog : Catalog}
    (h : Restorable base former catalog) (a : Atom) :
    Restorable base former (finalState (Catalog.declare a catalog)) := by
  rcases finalState_declare a catalog with heq | heq
  · rw [heq]
    exact h
  · rw [heq]
    exact h.insertNew _ _

theorem Restorable.declareAll {base : Nat} {former catalog : Catalog}
    (h : Restorable base former catalog) (as : List Atom) :
    Restorable base former (finalState (Catalog.declareAll as catalog)) := by
  induction as generalizing catalog with
  | nil => exact h
  | cons a as ih =>
    rw [Catalog.declareAll]
    exact finalState_bind (h.declare a) fun _ _ _ h' => ih h'

theorem Restorable.enter {base place : Nat} {former catalog : Catalog}
    (h : Restorable base former catalog) (hplace : base ≤ place) (c : Clause) :
    Restorable base former (finalState (Catalog.enter place c catalog)) := by
  unfold Catalog.enter
  cases c.check with
  | error e => exact h
  | ok u =>
    exact finalState_bind (h.declareAll c.atoms) fun _ _ _ h' => h'.record hplace c

theorem Restorable.enterAll {base place : Nat} {former catalog : Catalog}
    (h : Restorable base former catalog) (hplace : base ≤ place) (cs : List Clause) :
    Restorable base former (finalState (Catalog.enterAll place cs catalog)) := by
  induction cs generalizing place catalog with
  | nil => exact h
  | cons c cs ih =>
    rw [Catalog.enterAll]
    exact finalState_bind (h.enter hplace c) fun _ _ _ h' => ih h' (Nat.le_succ_of_le hplace)

/-! ## What is entered is described -/

/-- All that declaring some occurrences does. -/
structure Declared (as : List Atom) (catalog catalog' : Catalog) : Prop where
  arity?_of_mem : ∀ a ∈ as, arity? catalog' a.predicate = some a.arity
  arity?_of_eq_some : ∀ name k, arity? catalog name = some k → arity? catalog' name = some k
  keys : ∀ name ∈ Table.keys catalog', name ∈ Table.keys catalog ∨ ∃ a ∈ as, a.predicate = name
  nodup : (Table.keys catalog).Nodup → (Table.keys catalog').Nodup
  below : ∀ bound, Below bound catalog → Below bound catalog'

theorem Declared.nil (catalog : Catalog) : Declared [] catalog catalog where
  arity?_of_mem _ ha := absurd ha List.not_mem_nil
  arity?_of_eq_some _ _ hk := hk
  keys _ hname := Or.inl hname
  nodup hn := hn
  below _ hb := hb

theorem Declared.append {as bs : List Atom} {catalog mid catalog' : Catalog}
    (h : Declared as catalog mid) (h' : Declared bs mid catalog') :
    Declared (as ++ bs) catalog catalog' where
  arity?_of_mem a ha := by
    rcases List.mem_append.mp ha with ha | ha
    · exact h'.arity?_of_eq_some _ _ (h.arity?_of_mem a ha)
    · exact h'.arity?_of_mem a ha
  arity?_of_eq_some name k hk := h'.arity?_of_eq_some name k (h.arity?_of_eq_some name k hk)
  keys name hname := by
    rcases h'.keys name hname with hmid | ⟨b, hb, heq⟩
    · rcases h.keys name hmid with hold | ⟨a, ha, heq⟩
      · exact Or.inl hold
      · exact Or.inr ⟨a, List.mem_append_left bs ha, heq⟩
    · exact Or.inr ⟨b, List.mem_append_right as hb, heq⟩
  nodup hn := h'.nodup (h.nodup hn)
  below bound hb := h'.below bound (h.below bound hb)

/-- A new predicate gets the arity of its first occurrence. -/
theorem declared_insertNew {a : Atom} {catalog : Catalog}
    (hfind : Table.find? catalog a.predicate = none) :
    Declared [a] catalog (Table.insertNew catalog a.predicate ⟨a.arity, [], []⟩) := by
  have hread : ∀ name, arity? (Table.insertNew catalog a.predicate ⟨a.arity, [], []⟩) name =
      if name = a.predicate then some a.arity else arity? catalog name := by
    intro name
    unfold arity?
    rw [Table.find?_insertNew, hfind]
    split <;> rfl
  refine ⟨?_, ?_, ?_, fun hn => Table.nodup_keys_upsert hn _ _, ?_⟩
  · intro b hb
    rw [List.mem_singleton.mp hb, hread, if_pos rfl]
  · intro name k hk
    rw [hread]
    split
    · next hname =>
      rw [hname, arity?, hfind] at hk
      cases hk
    · exact hk
  · intro name hname
    refine (Table.mem_keys_upsert.mp hname).imp_right fun heq => ?_
    exact ⟨a, List.mem_singleton.mpr rfl, heq.symm⟩
  · intro bound hb e he place hplace
    rcases Table.mem_upsertEntries he with hold | hnew | ⟨e', he', hupd⟩
    · exact hb e hold place hplace
    · rw [hnew] at hplace
      exact absurd hplace List.not_mem_nil
    · rw [hupd] at hplace
      exact hb e' he' place hplace

/-- An occurrence is noted if its predicate is new, or known with the same arity. -/
theorem declare_eq_ok {a : Atom} {catalog catalog' : Catalog}
    (h : declare a catalog = .ok () catalog') :
    (Table.find? catalog a.predicate = none ∧
      catalog' = Table.insertNew catalog a.predicate ⟨a.arity, [], []⟩) ∨
    ∃ s, Table.find? catalog a.predicate = some s ∧ s.arity = a.arity ∧ catalog' = catalog := by
  unfold declare at h
  cases hfind : Table.find? catalog a.predicate with
  | none =>
    rw [hfind] at h
    exact Or.inl ⟨rfl, (EStateM.Result.ok.inj h).2.symm⟩
  | some s =>
    rw [hfind] at h
    simp only at h
    split at h
    · next harity => exact Or.inr ⟨s, rfl, harity, (EStateM.Result.ok.inj h).2.symm⟩
    · cases h

theorem declared_of_declare {a : Atom} {catalog catalog' : Catalog}
    (h : declare a catalog = .ok () catalog') : Declared [a] catalog catalog' := by
  rcases declare_eq_ok h with ⟨hfind, rfl⟩ | ⟨s, hfind, harity, rfl⟩
  · exact declared_insertNew hfind
  · refine ⟨fun b hb => ?_, fun _ _ hk => hk, fun _ hname => Or.inl hname, fun hn => hn,
      fun _ hb => hb⟩
    rw [List.mem_singleton.mp hb, arity?, hfind, ← harity]
    rfl

theorem declared_of_declareAll {as : List Atom} {catalog catalog' : Catalog}
    (h : declareAll as catalog = .ok () catalog') : Declared as catalog catalog' := by
  induction as generalizing catalog with
  | nil =>
    obtain ⟨-, rfl⟩ := pure_eq_ok.mp h
    exact .nil catalog
  | cons a as ih =>
    obtain ⟨_, mid, hfirst, hrest⟩ := bind_eq_ok.mp h
    exact (declared_of_declare hfirst).append (ih hrest)

theorem find?_record (place : Nat) (c : Clause) (catalog : Catalog) (name : Predicate) :
    Table.find? (record place c catalog) name =
      if name = c.head.predicate then
        some (((Table.find? catalog c.head.predicate).getD ⟨c.head.arity, [], []⟩).record place c)
      else Table.find? catalog name := Table.find?_upsert _ _ _ _

theorem arity_record (s : Signature) (place : Nat) (c : Clause) :
    (s.record place c).arity = s.arity := by
  cases c <;> rfl

/-- Recording a clause changes no arity of a known predicate. -/
theorem arity?_record_of_eq_some {place : Nat} {c : Clause} {catalog : Catalog} {name : Predicate}
    {k : Nat} (h : arity? catalog name = some k) :
    arity? (record place c catalog) name = some k := by
  unfold arity? at h ⊢
  rw [find?_record]
  split
  · next hname =>
    rw [hname] at h
    obtain ⟨s, hs, hk⟩ := Option.map_eq_some_iff.mp h
    rw [hs, Option.map_some, Option.getD_some, arity_record, hk]
  · exact h

theorem below_record {place : Nat} {c : Clause} {catalog : Catalog} (h : Below place catalog) :
    Below (place + 1) (record place c catalog) := by
  have hrecord : ∀ s : Signature, (∀ i ∈ s.facts ++ s.rules, i < place) →
      ∀ i ∈ (s.record place c).facts ++ (s.record place c).rules, i < place + 1 := by
    intro s hs i hi
    have hmem : i ∈ s.facts ++ s.rules ∨ i = place := by
      cases c <;>
      · simp only [Signature.record, List.mem_append, List.mem_singleton] at hi ⊢
        tauto
    rcases hmem with hold | rfl
    · exact Nat.lt_succ_of_lt (hs i hold)
    · exact Nat.lt_succ_self i
  intro e he i hi
  rcases Table.mem_upsertEntries he with hold | hnew | ⟨e', he', hupd⟩
  · exact Nat.lt_succ_of_lt (h e hold i hi)
  · rw [hnew] at hi
    exact hrecord _ (fun j hj => absurd hj List.not_mem_nil) i hi
  · rw [hupd] at hi
    exact hrecord e'.2 (h e' he') i hi

/-- A clause is entered by noting the occurrences in it, and then its place. -/
theorem enter_eq_ok_iff {place : Nat} {c : Clause} {catalog catalog' : Catalog} :
    enter place c catalog = .ok () catalog' ↔ c.check = .ok () ∧
      ∃ mid, declareAll c.atoms catalog = .ok () mid ∧ catalog' = record place c mid := by
  unfold enter
  cases c.check with
  | error e => simp [throw_ne_ok]
  | ok u =>
    simp only [true_and]
    rw [bind_eq_ok]
    constructor
    · rintro ⟨_, mid, hdeclare, hrecord⟩
      exact ⟨mid, hdeclare, (EStateM.Result.ok.inj hrecord).2.symm⟩
    · rintro ⟨mid, hdeclare, rfl⟩
      exact ⟨(), mid, hdeclare, rfl⟩

/-- What every clause keeps that is entered behind others, a batch of them keeps. -/
theorem enterAll_induction {motive : Catalog → List Clause → Prop}
    (enter : ∀ {catalog catalog' : Catalog} {cs : List Clause} {c : Clause}, motive catalog cs →
      Catalog.enter cs.length c catalog = .ok () catalog' → motive catalog' (cs ++ [c]))
    {catalog catalog' : Catalog} {cs batch : List Clause} (h : motive catalog cs)
    (hrun : enterAll cs.length batch catalog = .ok () catalog') :
    motive catalog' (cs ++ batch) := by
  induction batch generalizing catalog cs with
  | nil =>
    obtain ⟨-, rfl⟩ := pure_eq_ok.mp hrun
    rw [List.append_nil]
    exact h
  | cons c batch ih =>
    obtain ⟨_, mid, hfirst, hrest⟩ := bind_eq_ok.mp hrun
    rw [List.append_cons cs c batch]
    refine ih (enter h hfirst) ?_
    rw [List.length_append, List.length_singleton]
    exact hrest

/-- The catalog describes the clauses, and they pass their checks. -/
structure Describes (catalog : Catalog) (cs : List Clause) : Prop where
  check : ∀ c ∈ cs, c.check = .ok ()
  arity? : ∀ c ∈ cs, ∀ a ∈ c.atoms, Catalog.arity? catalog a.predicate = some a.arity
  occurs : ∀ name ∈ Table.keys catalog, ∃ c ∈ cs, ∃ a ∈ c.atoms, a.predicate = name
  nodup : (Table.keys catalog).Nodup
  below : Below cs.length catalog

theorem Describes.enter {catalog catalog' : Catalog} {cs : List Clause} (h : Describes catalog cs)
    {c : Clause} (henter : Catalog.enter cs.length c catalog = .ok () catalog') :
    Describes catalog' (cs ++ [c]) := by
  obtain ⟨hcheck, mid, hdeclare, rfl⟩ := enter_eq_ok_iff.mp henter
  have hd := declared_of_declareAll hdeclare
  refine ⟨?_, ?_, ?_, ?_, ?_⟩
  · intro c' hc'
    rcases List.mem_append.mp hc' with hold | hnew
    · exact h.check c' hold
    · rw [List.mem_singleton.mp hnew]
      exact hcheck
  · intro c' hc' a ha
    apply arity?_record_of_eq_some
    rcases List.mem_append.mp hc' with hold | hnew
    · exact hd.arity?_of_eq_some _ _ (h.arity? c' hold a ha)
    · rw [List.mem_singleton.mp hnew] at ha
      exact hd.arity?_of_mem a ha
  · intro name hname
    have hnew : c ∈ cs ++ [c] := List.mem_append_right cs (List.mem_singleton.mpr rfl)
    rcases Table.mem_keys_upsert.mp hname with hmid | rfl
    · rcases hd.keys name hmid with hold | ⟨a, ha, rfl⟩
      · obtain ⟨c', hc', hocc⟩ := h.occurs name hold
        exact ⟨c', List.mem_append_left [c] hc', hocc⟩
      · exact ⟨c, hnew, a, ha, rfl⟩
    · exact ⟨c, hnew, c.head, c.head_mem_atoms, rfl⟩
  · exact Table.nodup_keys_upsert (hd.nodup h.nodup) _ _
  · rw [List.length_append, List.length_singleton]
    exact below_record (hd.below _ h.below)

theorem Describes.enterAll {catalog catalog' : Catalog} {cs batch : List Clause}
    (h : Describes catalog cs)
    (henter : Catalog.enterAll cs.length batch catalog = .ok () catalog') :
    Describes catalog' (cs ++ batch) := enterAll_induction (fun h => h.enter) h henter

end Catalog

namespace Program

/-- The clauses pass their checks, and the catalog describes them. -/
def Valid (p : Program) : Prop := Catalog.Describes p.catalog p.clauses

theorem valid_empty : Valid {} where
  check _ hc := absurd hc List.not_mem_nil
  arity? _ hc := absurd hc List.not_mem_nil
  occurs _ hname := absurd hname List.not_mem_nil
  nodup := List.nodup_nil
  below _ he := absurd he List.not_mem_nil

/-- **A refused batch leaves the program as it is.** -/
theorem extend_error {p p' : Program} (hp : p.Valid) {batch : List Clause} {e : IllFormed}
    (h : extend batch p = .error e p') : p' = p := by
  have hrest := (Catalog.Restorable.refl hp.below).enterAll (le_refl _) batch
  unfold extend at h
  cases hrun : Catalog.enterAll p.clauses.length batch p.catalog with
  | ok u catalog =>
    rw [hrun] at h
    cases h
  | error e' catalog =>
    rw [hrun] at h hrest
    obtain ⟨-, rfl⟩ := EStateM.Result.error.inj h
    exact congrArg (Program.mk p.clauses) hrest.withdraw

/-- An accepted batch is appended, and the program stays consistent. -/
theorem extend_ok {p p' : Program} (hp : p.Valid) {batch : List Clause}
    (h : extend batch p = .ok () p') : p'.clauses = p.clauses ++ batch ∧ p'.Valid := by
  unfold extend at h
  cases hrun : Catalog.enterAll p.clauses.length batch p.catalog with
  | error e' catalog =>
    rw [hrun] at h
    cases h
  | ok u catalog =>
    rw [hrun] at h
    obtain ⟨-, rfl⟩ := EStateM.Result.ok.inj h
    exact ⟨rfl, hp.enterAll hrun⟩

/-- Programs that come about by adding batches, accepted or refused. -/
inductive Reachable : Program → Prop where
  | empty : Reachable {}
  | extend {p : Program} (batch : List Clause) :
      Reachable p → Reachable (finalState (Program.extend batch p))

theorem Reachable.valid {p : Program} (h : p.Reachable) : p.Valid := by
  induction h with
  | empty => exact valid_empty
  | @extend p batch _ ih =>
    cases hrun : Program.extend batch p with
    | ok u p' => exact (extend_ok ih hrun).2
    | error e p' =>
      have heq := extend_error ih hrun
      rw [← heq] at ih
      exact ih

theorem reachable_of_ofClauses {cs : List Clause} {p : Program} (h : ofClauses cs = .ok p) :
    p.Reachable ∧ p.clauses = cs := by
  unfold ofClauses at h
  cases hrun : Program.extend cs {} with
  | error e p' =>
    rw [hrun] at h
    cases h
  | ok u p' =>
    rw [hrun] at h
    rw [← Except.ok.inj h]
    have hreach := Reachable.extend cs .empty
    rw [hrun] at hreach
    exact ⟨hreach, (extend_ok valid_empty hrun).1⟩

namespace Valid

variable {p : Program} (hp : p.Valid)

include hp

theorem arity?_of_mem {c : Clause} (hc : c ∈ p.clauses) {a : Atom} (ha : a ∈ c.atoms) :
    p.arity? a.predicate = some a.arity := hp.arity? c hc a ha

theorem mem_predicates_iff {name : Predicate} :
    name ∈ p.predicates ↔ ∃ c ∈ p.clauses, ∃ a ∈ c.atoms, a.predicate = name := by
  constructor
  · exact hp.occurs name
  · rintro ⟨c, hc, a, ha, rfl⟩
    obtain ⟨s, hs, -⟩ := Option.map_eq_some_iff.mp (hp.arity?_of_mem hc ha)
    exact Table.mem_keys_iff.mpr ⟨s, hs⟩

end Valid

theorem mem_rules {p : Program} {r : Rule} : r ∈ p.rules ↔ Clause.rule r ∈ p.clauses := by
  unfold rules
  rw [List.mem_filterMap]
  constructor
  · rintro ⟨c, hc, hr⟩
    cases c with
    | fact a => cases hr
    | rule r' =>
      cases hr
      exact hc
  · exact fun h => ⟨_, h, rfl⟩

theorem mem_facts {p : Program} {a : Atom} : a ∈ p.facts ↔ Clause.fact a ∈ p.clauses := by
  unfold facts
  rw [List.mem_filterMap]
  constructor
  · rintro ⟨c, hc, ha⟩
    cases c with
    | rule r => cases ha
    | fact a' =>
      cases ha
      exact hc
  · exact fun h => ⟨_, h, rfl⟩

/-- Facts have no variables. -/
theorem Valid.vars_eq_nil {p : Program} (hp : p.Valid) {a : Atom} (ha : a ∈ p.facts) :
    a.vars = [] := Clause.check_eq_ok_iff.mp (hp.check _ (mem_facts.mp ha))

/-- Every fact is a row of its relation. -/
theorem Valid.exists_toTuple? {p : Program} (hp : p.Valid) {a : Atom} (ha : a ∈ p.facts) :
    ∃ t, a.toTuple? = some t := Atom.exists_toTuple? (hp.vars_eq_nil ha)

/-- Every rule binds the variables of its head. -/
theorem Valid.rangeRestricted {p : Program} (hp : p.Valid) {r : Rule} (hr : r ∈ p.rules) :
    r.RangeRestricted := Clause.check_eq_ok_iff.mp (hp.check _ (mem_rules.mp hr))

end Program

end Datalog
