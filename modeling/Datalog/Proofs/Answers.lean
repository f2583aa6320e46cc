import Datalog.Proofs.KnowledgeBase
import Datalog.Proofs.Database.Calls

/-!
# The answers to a question

A question is an atom, put to the tuples of its relation.  Each tuple that is an instance of the
atom gives one answer, which binds the variables of the atom, in the order of their first
occurrences, to the values that turn the atom into that tuple
(`KnowledgeBase.answers_are_the_instances`).

* `Atom.Covers`: a tuple is an instance of the atom.
* `Atom.TurnsInto`: a substitution of just its variables turns the atom into a tuple.

## Why there is one answer for each tuple

Tuples are looked up by the constants of the atom only, and those that have different values for the
same variable are left out afterwards, when the atom is matched.  What is left are the matches of
all tuples.  And a match is nothing but a substitution that turns the atom into the tuple
(`Atom.turnsInto_iff`): the keys of both are the variables of the atom, and both have the values
that the tuple has where these variables stand.  So the tuple can be told from the answer, and the
answer from the tuple.
-/

namespace Datalog

namespace Atom

/-- The tuple is an instance of the atom. -/
def Covers (a : Atom) (t : Tuple) : Prop := ∃ v : Valuation, (a.ground v).2 = t

/-- The substitution binds the variables of the atom, in the order of their first occurrences and no
others, and turns the atom into the tuple. -/
structure TurnsInto (a : Atom) (s : Substitution) (t : Tuple) : Prop where
  keys : s.keys = a.vars.eraseDups
  instance_eq : a.instance? s = some t

/-! ## Matching binds the variables in order -/

theorem keys_of_matchTerms {ts : List Term} {t : Tuple} {s s' : Substitution}
    (h : matchTerms ts t s = some s') : s'.keys = (ts.filterMap Term.var?).foldl arrive s.keys := by
  induction ts generalizing t s with
  | nil =>
    cases t with
    | nil =>
      rw [matchTerms] at h
      rw [← Option.some.inj h]
      rfl
    | cons c t => simp [matchTerms] at h
  | cons u ts ih =>
    cases t with
    | nil => cases u <;> simp [matchTerms] at h
    | cons c t =>
      cases u with
      | const d =>
        rw [matchTerms] at h
        split at h
        · exact ih h
        · cases h
      | var x =>
        have hvars : (Term.var x :: ts).filterMap Term.var? = x :: ts.filterMap Term.var? := rfl
        rw [matchTerms] at h
        rw [hvars, List.foldl_cons]
        cases hx : s.find? x with
        | some w =>
          rw [hx] at h
          simp only at h
          split at h
          · rw [arrive_of_mem (Table.mem_keys_iff.mpr ⟨w, hx⟩)]
            exact ih h
          · cases h
        | none =>
          rw [hx] at h
          rw [ih h, Table.insertNew, Table.keys_upsert]

/-- A match binds the variables of the atom, in the order of their first occurrences. -/
theorem keys_of_match? {a : Atom} {t : Tuple} {s : Substitution} (h : a.match? t ∅ = some s) :
    s.keys = a.vars.eraseDups := by
  rw [keys_of_matchTerms h, ← List.nil_append a.vars, eraseDups_append_eq_foldl]
  rfl

/-- The atom is the tuple that it has been matched with. -/
theorem instance?_of_match? {a : Atom} {t : Tuple} {s s' : Substitution}
    (h : a.match? t s = some s') : a.instance? s' = some t := by
  have hv := Substitution.agrees_valuation s'
  rw [instance?_eq_some hv fun x hx => binds_of_match? h hx, ground_of_match? h hv]

/-- **A match is a substitution that turns the atom into the tuple**, and the only one. -/
theorem turnsInto_iff {a : Atom} {s : Substitution} {t : Tuple} :
    a.TurnsInto s t ↔ a.match? t ∅ = some s := by
  constructor
  · rintro ⟨hkeys, hinstance⟩
    have hv := Substitution.agrees_valuation s
    have hbinds : ∀ x ∈ a.vars, s.Binds x := fun x hx => by
      refine Table.mem_keys_iff.mp ?_
      rw [hkeys]
      exact List.mem_eraseDups.mpr hx
    rw [instance?_eq_some hv hbinds] at hinstance
    obtain ⟨s', hs', hagrees⟩ := exists_match? (Substitution.agrees_empty s.valuation) a
    rw [Option.some.inj hinstance] at hs'
    have hkeys' : s.keys = s'.keys := hkeys.trans (keys_of_match? hs').symm
    rw [hs']
    congr 1
    symm
    refine Table.eq_of_find?_eq (hkeys ▸ nodup_eraseDups _) hkeys' fun x => ?_
    -- Both agree with one valuation, on the same variables.
    cases hx : s.find? x with
    | none =>
      rw [Table.find?_eq_none_iff, hkeys', ← Table.find?_eq_none_iff] at hx
      exact hx.symm
    | some c =>
      have hmem : x ∈ s'.keys := hkeys' ▸ Table.mem_keys_iff.mpr ⟨c, hx⟩
      obtain ⟨c', hx'⟩ := Table.mem_keys_iff.mp hmem
      rw [hx', ← hv x c hx, hagrees x c' hx']
  · exact fun h => ⟨keys_of_match? h, instance?_of_match? h⟩

theorem covers_iff {a : Atom} {t : Tuple} : a.Covers t ↔ (a.match? t ∅).isSome = true := by
  constructor
  · rintro ⟨v, rfl⟩
    obtain ⟨s, hs, -⟩ := exists_match? (Substitution.agrees_empty v) a
    rw [hs]
    rfl
  · intro h
    obtain ⟨s, hs⟩ := Option.isSome_iff_exists.mp h
    exact ⟨s.valuation, congrArg Prod.snd (ground_of_match? hs (Substitution.agrees_valuation s))⟩

instance (a : Atom) : DecidablePred a.Covers := fun _ => decidable_of_iff' _ covers_iff

/-- The matches of tuples are one for each instance of the atom among them, in order. -/
theorem forall₂_filterMap_match? (a : Atom) (ts : List Tuple) :
    List.Forall₂ a.TurnsInto (ts.filterMap fun t => a.match? t ∅)
      (ts.filter fun t => a.Covers t) := by
  induction ts with
  | nil => exact .nil
  | cons t ts ih =>
    rw [List.filterMap_cons, List.filter_cons]
    cases hmatch : a.match? t ∅ with
    | none =>
      have hnot : ¬ a.Covers t := by
        rw [covers_iff, hmatch]
        exact Bool.false_ne_true
      rw [decide_eq_false hnot]
      exact ih
    | some s =>
      have hcovers : a.Covers t := by
        rw [covers_iff, hmatch]
        rfl
      rw [decide_eq_true hcovers]
      exact .cons (turnsInto_iff.mpr hmatch) ih

/-- Different tuples give different answers. -/
theorem nodup_filterMap_match? (a : Atom) {ts : List Tuple} (hts : ts.Nodup) :
    (ts.filterMap fun t => a.match? t ∅).Nodup := by
  refine hts.filterMap fun t t' s hs hs' => ?_
  have hinstance := instance?_of_match? (Option.mem_def.mp hs)
  rw [instance?_of_match? (Option.mem_def.mp hs')] at hinstance
  exact (Option.some.inj hinstance).symm

theorem mem_filterMap_match?_iff {a : Atom} {ts : List Tuple} {s : Substitution} :
    s ∈ ts.filterMap (fun t => a.match? t ∅) ↔ ∃ t ∈ ts, a.TurnsInto s t := by
  rw [List.mem_filterMap]
  exact exists_congr fun t => and_congr_right fun _ => turnsInto_iff.symm

/-! ## Questions to a database -/

section Database

variable {db : Database} {a : Atom}

theorem answers_of_arity?_eq_none (h : db.arity? a.predicate = none) :
    a.answers db = .ok [] db := by
  unfold answers
  rw [get_bind, Storage.contents_database, h]
  rfl

theorem answers_of_arity? (hdb : db.WellFormed) {arity : Nat}
    (h : db.arity? a.predicate = some arity) :
    a.answers db =
      if a.arity = arity then
        .ok ((db.tuples a.predicate).filterMap fun t => a.match? t ∅) db
      else .error (.arityMismatch a.predicate arity a.arity) db := by
  have hlookup := hdb.lookup_of_arity? h (a.pattern ∅)
  have hread : Storage.lookup a.predicate (a.pattern ∅) db =
      Database.read (fun db => db.lookup a.predicate (a.pattern ∅)) db := rfl
  rw [length_pattern] at hlookup
  unfold answers
  rw [get_bind, Storage.contents_database, h]
  simp only
  split
  · next harity =>
    rw [if_pos harity] at hlookup
    rw [bind_of_eq_ok _ (Storage.lookup_database_eq_ok.mpr ⟨hlookup, rfl⟩),
      filterMap_match?_filter_fits]
    rfl
  · next harity =>
    rw [if_neg harity] at hlookup
    refine bind_of_eq_error _ ?_
    rw [hread, Database.read_congr (g := fun _ => .error _) hlookup]
    rfl

end Database

end Atom

namespace KnowledgeBase

variable {kb kb' : KnowledgeBase Database}

/-- A question leaves the knowledge base as it is. -/
theorem query_eq (hdb : kb.storage.WellFormed) (a : Atom) :
    query a kb =
      match kb.storage.arity? a.predicate with
      | none => .ok [] kb
      | some arity =>
        if a.arity = arity then
          .ok ((kb.storage.tuples a.predicate).filterMap fun t => a.match? t ∅) kb
        else .error (storageFailure (.arityMismatch a.predicate arity a.arity)) kb := by
  unfold query
  cases h : kb.storage.arity? a.predicate with
  | none => exact onStorage_of_eq_ok _ _ _ (Atom.answers_of_arity?_eq_none h)
  | some arity =>
    have hanswers := Atom.answers_of_arity? hdb h
    simp only
    split
    · next harity =>
      rw [if_pos harity] at hanswers
      exact onStorage_of_eq_ok _ _ _ hanswers
    · next harity =>
      rw [if_neg harity] at hanswers
      exact onStorage_of_eq_error _ _ _ hanswers

/-- A question succeeds with the matches of the tuples, of which there are none if there is no
relation. -/
theorem query_eq_ok_iff (hdb : kb.storage.WellFormed) {a : Atom} {answers : List Substitution} :
    query a kb = .ok answers kb' ↔ kb' = kb ∧
      (∀ arity, kb.storage.arity? a.predicate = some arity → a.arity = arity) ∧
      answers = (kb.storage.tuples a.predicate).filterMap fun t => a.match? t ∅ := by
  rw [query_eq hdb]
  cases h : kb.storage.arity? a.predicate with
  | none =>
    have hnone : kb.storage.tuples a.predicate = [] :=
      Database.tuples_of_find?_eq_none (Database.arity?_eq_none_iff.mp h)
    simp [hnone, eq_comm, and_comm]
  | some arity =>
    by_cases harity : a.arity = arity
    · simp [harity, eq_comm, and_comm]
    · simp [harity]

/-- Whoever asks is told whether there are answers. -/
theorem ask_eq_ok_iff {text : String} {b : Bool} :
    ask text kb = .ok b kb' ↔ ∃ a, Atom.ofText text = .ok a ∧
      ∃ answers, query a kb = .ok answers kb' ∧ b = !answers.isEmpty := by
  unfold ask queryText
  cases Atom.ofText text with
  | error e =>
    constructor
    · intro h
      obtain ⟨answers, mid, hthrow, -⟩ := bind_eq_ok.mp h
      exact absurd hthrow throw_ne_ok
    · rintro ⟨a, ha, -⟩
      cases ha
  | ok a =>
    simp only [Except.ok.injEq, exists_eq_left']
    rw [bind_eq_ok]
    constructor
    · rintro ⟨answers, mid, hquery, hpure⟩
      obtain ⟨rfl, rfl⟩ := pure_eq_ok.mp hpure
      exact ⟨answers, hquery, rfl⟩
    · rintro ⟨answers, hquery, rfl⟩
      exact ⟨answers, kb', hquery, rfl⟩

/-- **The answers to a question are the instances of the atom, each once.**  Over a database that
calls can build: a question about a relation that is not there has no answers, one with another
number of arguments than the relation fails, and any other one has an answer for each tuple that is
an instance of the atom, in the order of the tuples.  An answer binds the variables of the atom, in
the order of their first occurrences, so that the atom becomes the tuple.  So no answer is given
twice, and a binding of the variables is an answer exactly if it turns the atom into a tuple of the
relation.  Asking with a text gives true exactly if there is such a binding for the atom the text
consists of. -/
theorem answers_are_the_instances (hdb : kb.storage.Reachable) :
    (∀ a : Atom,
      (kb.storage.arity? a.predicate = none → query a kb = .ok [] kb) ∧
      (∀ arity, kb.storage.arity? a.predicate = some arity → arity ≠ a.arity →
        query a kb =
          .error (.evaluation (.storage (.arityMismatch a.predicate arity a.arity))) kb) ∧
      (kb.storage.arity? a.predicate = some a.arity → ∃ answers, query a kb = .ok answers kb ∧
        List.Forall₂ a.TurnsInto answers
          ((kb.storage.tuples a.predicate).filter fun t => a.Covers t) ∧
        answers.Nodup ∧
        ∀ s, s ∈ answers ↔ ∃ t ∈ kb.storage.tuples a.predicate, a.TurnsInto s t)) ∧
    ∀ text kb', ask text kb = .ok true kb' ↔ kb' = kb ∧ ∃ a, Atom.ofText text = .ok a ∧
      ∃ s, ∃ t ∈ kb.storage.tuples a.predicate, a.TurnsInto s t := by
  have hwf := hdb.wellFormed
  refine ⟨fun a => ⟨fun hnone => ?_, fun arity harity hne => ?_, fun harity => ?_⟩,
    fun text kb' => ?_⟩
  · rw [query_eq hwf, hnone]
  · rw [query_eq hwf, harity]
    exact if_neg hne.symm
  · refine ⟨_, (query_eq_ok_iff hwf).mpr ⟨rfl, fun k hk => ?_, rfl⟩,
      a.forall₂_filterMap_match? _, a.nodup_filterMap_match? (hwf.nodup_tuples _),
      fun s => Atom.mem_filterMap_match?_iff⟩
    exact Option.some.inj (harity.symm.trans hk)
  · rw [ask_eq_ok_iff]
    constructor
    · rintro ⟨a, ha, answers, hquery, hsome⟩
      obtain ⟨rfl, -, rfl⟩ := (query_eq_ok_iff hwf).mp hquery
      refine ⟨rfl, a, ha, ?_⟩
      rw [eq_comm, Bool.not_eq_true', List.isEmpty_eq_false_iff_exists_mem] at hsome
      obtain ⟨s, hs⟩ := hsome
      exact ⟨s, Atom.mem_filterMap_match?_iff.mp hs⟩
    · rintro ⟨rfl, a, ha, s, hs⟩
      refine ⟨a, ha, _, (query_eq_ok_iff hwf).mpr ⟨rfl, fun k hk => ?_, rfl⟩, ?_⟩
      · obtain ⟨t, ht, hturns⟩ := hs
        have hlength := Atom.length_of_match? (Atom.turnsInto_iff.mp hturns)
        rw [hwf.arity?_of_mem ht, hlength] at hk
        exact Option.some.inj hk
      · rw [eq_comm, Bool.not_eq_true', List.isEmpty_eq_false_iff_exists_mem]
        exact ⟨s, Atom.mem_filterMap_match?_iff.mpr hs⟩

/-- Journeys, some of them within one city. -/
def journeys : List Database.Change :=
  [.create "journey" 3, .insert "journey" ["ann", "oslo", "oslo"],
    .insert "journey" ["bob", "bari", "bari"], .insert "journey" ["ann", "oslo", "rome"],
    .insert "journey" ["ann", "rome", "rome"]]

theorem ann_stays_in_oslo_and_rome :
    let kb : KnowledgeBase Database := { storage := Database.ofChanges journeys }
    let a : Atom := ⟨"journey", [.const "ann", .var "X", .var "X"]⟩
    (∃ answers, query a kb = .ok answers kb ∧ List.Forall₂ a.TurnsInto answers
      [["ann", "oslo", "oslo"], ["ann", "rome", "rome"]]) ∧
    ask "journey(ann, X, X)" kb = .ok true kb := by
  intro kb a
  have hdb : kb.storage.Reachable := Database.reachable_ofChanges journeys
  obtain ⟨hquery, hask⟩ := answers_are_the_instances hdb
  constructor
  · obtain ⟨answers, hanswers, hturns, -⟩ := (hquery a).2.2 (by decide +kernel)
    have hfound : (kb.storage.tuples a.predicate).filter (fun t => a.Covers t) =
        [["ann", "oslo", "oslo"], ["ann", "rome", "rome"]] := by decide +kernel
    exact ⟨answers, hanswers, hfound ▸ hturns⟩
  · exact (hask _ _).mpr ⟨rfl, a, by decide +kernel, ⟨[("X", "oslo")]⟩, ["ann", "oslo", "oslo"],
      by decide +kernel, by decide +kernel, by decide +kernel⟩

end KnowledgeBase

end Datalog
