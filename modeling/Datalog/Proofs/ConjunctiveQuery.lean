import Datalog.Proofs.Database.Calls
import Datalog.Proofs.Fixpoint.Harvest

/-!
# A rule as a query to a database

The body of a rule asks for the values of its variables under which every atom is a stored tuple,
and the head says what to answer for them.  `Rule.derive` answers just that, each tuple once
(`Rule.derive_answers_query`), whatever the order of the body, and however often a variable or an
atom occurs in it.  With one atom over the tuples just added, only the values are left that make
this atom one of them.
-/

namespace Datalog
namespace Rule

variable {r : Rule}

theorem nodup_derived (r : Rule) (db : Database) (body : List (Range × Atom)) :
    (r.derived db body).Nodup := nodup_eraseDups _

/-- The head of a rule without body is ground. -/
theorem RangeRestricted.exists_toTuple? (hr : r.RangeRestricted) (hbody : r.body = []) :
    ∃ t, r.head.toTuple? = some t := by
  refine Atom.exists_toTuple? (List.eq_nil_iff_forall_not_mem.mpr fun x hx => ?_)
  have hmem := hr x hx
  rw [bodyVars, hbody] at hmem
  exact List.not_mem_nil hmem

/-- A rule without body derives its head, whatever the database holds. -/
theorem derived_of_body_eq_nil (hr : r.RangeRestricted) (hbody : r.body = []) (db : Database) :
    ∃ t, r.head.toTuple? = some t ∧ r.derived db r.overStored = [t] := by
  obtain ⟨t, ht⟩ := hr.exists_toTuple? hbody
  refine ⟨t, ht, List.perm_singleton.mp ?_⟩
  rw [List.perm_ext_iff_of_nodup (r.nodup_derived _ _) (List.nodup_singleton t)]
  intro u
  rw [mem_derived_iff hr r.map_snd_overStored, List.mem_singleton]
  constructor
  · rintro ⟨v, -, rfl⟩
    rw [Atom.ground_of_toTuple? ht]
  · rintro rfl
    refine ⟨fun _ => "", satisfies_overStored.mpr fun b hb => ?_, ?_⟩
    · rw [hbody] at hb
      exact absurd hb List.not_mem_nil
    · rw [Atom.ground_of_toTuple? ht]

/-- **A rule derives the answers to its query.**  Let every variable of the head occur in the body,
and let the database have a relation of the right arity for each body atom.  Then deriving cannot
fail, it leaves the database as it is, and it gives each tuple once that the head becomes under
some values of the variables for which every body atom is a tuple of the database; without a body,
this is the head.  With the atom at one position over tuples just added, the values are those for
which this atom is one of the tuples just added and every other atom is a tuple of the database; the
tuples just added need not be of its relation, but if they are then its arity has to be right. -/
theorem derive_answers_query (hr : r.RangeRestricted) {db : Database} (hdb : db.Reachable)
    (hstored : ∀ b ∈ r.body, db.arity? b.predicate = some b.arity) :
    (∃ ts fetched, r.derive r.overStored db = .ok (ts, fetched) db ∧ ts.Nodup ∧
      (∀ t, t ∈ ts ↔
        ∃ v : Valuation, (∀ b ∈ r.body, b.ground v ∈ db.holds) ∧ (r.head.ground v).2 = t) ∧
      (r.body = [] → ∃ t, r.head.toTuple? = some t ∧ ts = [t])) ∧
    ∀ (position : Nat) (added : Database), added.Reachable →
      (∀ b k, r.body[position]? = some b → added.arity? b.predicate = some k → k = b.arity) →
      ∃ ts fetched, r.derive (r.overRecent position added) db = .ok (ts, fetched) db ∧ ts.Nodup ∧
        ∀ t, t ∈ ts ↔ ∃ v : Valuation,
          (∀ i b, r.body[i]? = some b →
            b.ground v ∈ if i = position then added.holds else db.holds) ∧
          (r.head.ground v).2 = t := by
  have hwf := hdb.wellFormed
  refine ⟨⟨_, _, derive_eq hwf r (served_overStored hstored), r.nodup_derived _ _, fun t => ?_,
    fun hbody => derived_of_body_eq_nil hr hbody db⟩, fun position added hadded harity => ?_⟩
  · simp only [mem_derived_iff hr r.map_snd_overStored, satisfies_overStored]
  · refine ⟨_, _, derive_eq hwf r (served_overRecent hstored hadded.wellFormed position harity),
      r.nodup_derived _ _, fun t => ?_⟩
    simp only [mem_derived_iff hr (r.map_snd_overRecent position added), satisfies_overRecent]

/-- From where one can go there and back. -/
def thereAndBack : Rule :=
  ⟨⟨"trip", [.var "X", .const "return"]⟩,
    [⟨"leg", [.var "X", .var "Y"]⟩, ⟨"leg", [.var "Y", .var "X"]⟩]⟩

/-- Legs between three cities. -/
def legs : Database := Database.ofChanges
  [.create "leg" 2, .insert "leg" ["oslo", "rome"], .insert "leg" ["rome", "oslo"],
    .insert "leg" ["rome", "bari"]]

/-- The leg that has just been added. -/
def lastLeg : Database := Database.ofChanges [.create "leg" 2, .insert "leg" ["rome", "oslo"]]

theorem trips_over_last_leg :
    (∃ ts fetched, thereAndBack.derive thereAndBack.overStored legs = .ok (ts, fetched) legs ∧
      ["oslo", "return"] ∈ ts ∧ ["bari", "return"] ∉ ts) ∧
    ∃ ts fetched, thereAndBack.derive (thereAndBack.overRecent 0 lastLeg) legs =
      .ok (ts, fetched) legs ∧ ["rome", "return"] ∈ ts ∧ ["oslo", "return"] ∉ ts := by
  have hr : thereAndBack.RangeRestricted := by
    unfold RangeRestricted
    decide
  have hstored : ∀ b ∈ thereAndBack.body, legs.arity? b.predicate = some b.arity := by
    decide +kernel
  have harity : ∀ b k, thereAndBack.body[0]? = some b → lastLeg.arity? b.predicate = some k →
      k = b.arity := by
    rintro b k hb hk
    obtain rfl := Option.some.inj hb
    exact (Option.some.inj (show some 2 = some k from hk)).symm
  have hlegs : legs.tuples "leg" = [["oslo", "rome"], ["rome", "oslo"], ["rome", "bari"]] := by
    decide +kernel
  have hlast : lastLeg.tuples "leg" = [["rome", "oslo"]] := by decide +kernel
  have hreachable : legs.Reachable := Database.reachable_ofChanges _
  have hreachable' : lastLeg.Reachable := Database.reachable_ofChanges _
  obtain ⟨⟨ts, fetched, hderive, -, hmem, -⟩, hrecent⟩ :=
    derive_answers_query hr hreachable hstored
  obtain ⟨ts', fetched', hderive', -, hmem'⟩ := hrecent 0 lastLeg hreachable' harity
  refine ⟨⟨ts, fetched, hderive, (hmem _).mpr ?_, fun hbari => ?_⟩,
    ts', fetched', hderive', (hmem' _).mpr ?_, fun hoslo => ?_⟩
  · refine ⟨fun x => if x = "X" then "oslo" else "rome", ?_, rfl⟩
    simp [thereAndBack, Atom.ground, Term.eval, Database.mem_holds, hlegs]
  · obtain ⟨v, hbody, hhead⟩ := (hmem _).mp hbari
    have hx : v "X" = "bari" := (List.cons.inj hhead).1
    have hleg : [v "X", v "Y"] ∈ legs.tuples "leg" :=
      Database.mem_holds.mp (hbody _ List.mem_cons_self)
    rw [hlegs, hx] at hleg
    simp at hleg
  · refine ⟨fun x => if x = "X" then "rome" else "oslo", fun i b hb => ?_, rfl⟩
    rcases i with _ | _ | i
    · obtain rfl := Option.some.inj hb
      simp [Atom.ground, Term.eval, Database.mem_holds, hlast]
    · obtain rfl := Option.some.inj hb
      simp [Atom.ground, Term.eval, Database.mem_holds, hlegs]
    · cases hb
  · obtain ⟨v, hbody, hhead⟩ := (hmem' _).mp hoslo
    have hx : v "X" = "oslo" := (List.cons.inj hhead).1
    have hleg : [v "X", v "Y"] ∈ lastLeg.tuples "leg" := Database.mem_holds.mp (hbody 0 _ rfl)
    rw [hlast, hx] at hleg
    simp at hleg

end Rule
end Datalog
