import QirProfile.Proofs.Transform.ElementAccesses
import QirProfile.Proofs.Transform.Rounds

/-!
# Housekeeping calls are gone, and nothing else is

Some settings remove the calls of functions that only keep the books of a runtime. This is about what
stands in the blocks in the end, in any sound program.
-/

namespace QirProfile

namespace Program

theorem Spliced.stood {p q : Program} {rs : List Replacement} {b : BlockId} {j : InstrId} (h : Spliced rs p q)
    (hnodup : (rs.map (·.old)).Nodup) (hj : j ∈ (q.block b).instrs) :
    (j ∈ (p.block b).instrs ∧ j ∉ rs.map (·.old)) ∨ ∃ r ∈ rs, r.new = some j := by
  obtain ⟨i, hi, hj⟩ := List.mem_flatMap.mp (h.listed b ▸ hj)
  by_cases hold : i ∈ rs.map (·.old)
  · obtain ⟨r, hr, rfl⟩ := List.mem_map.mp hold
    rw [splice_of_mem hnodup hr, Option.mem_toList] at hj
    exact .inr ⟨r, hr, hj⟩
  · rw [splice_of_not_mem hold, List.mem_singleton] at hj
    exact .inl ⟨hj ▸ hi, hj ▸ hold⟩

end Program

namespace Transform

open Replacing
open Program (Extends Calls Fetch ElementPart Ready Spliced)

variable {settings : RuleSettings} {s : TransformSettings} {st : RuleState Addresses} {id i : InstrId}
  {ids : List InstrId} {name : String}

/-! ## 1. What is accepted -/

theorem removed_accepted (hname : name ∈ settings.removed) (hcalls : st.program.Calls id name)
    (hlive : (st.program.instr id).erased = false) {accepted : Bool} {st' : RuleState Addresses}
    (h : applyFirst settings.rules id st = .ok accepted st') : accepted = true := by
  obtain ⟨g, hg, hname⟩ := List.mem_flatMap.mp hname
  have hrule : removeCalls name ∈ settings.rules := by
    refine List.mem_flatMap.mpr ⟨g, hg, ?_⟩
    cases g <;> first | exact List.mem_map_of_mem hname | cases hname
  refine applyFirst_settled hrule hlive (c := []) ?_ rfl ?_ h
  · exact Pattern.match?_leaf.mpr ⟨Pattern.test_call.mpr ⟨hlive, hcalls⟩, rfl⟩
  · exact nofun

theorem Attends.removed_scheduled (hs : st.program.Sound) (h : Attends settings st ids) (hid : id ∈ ids)
    (hname : name ∈ settings.removed) (hcalls : st.program.Calls id name) :
    id ∈ (visitAll settings.rules st ids).scheduled.map (·.old) := by
  obtain ⟨xs, ys, rfl⟩ := List.append_of_mem hid
  obtain ⟨hgrown, ⟨b, hb⟩, -, -⟩ := h.split hs
  have hcalled := (hgrown.calls_iff hcalls.lt (not_inserted_of_removed hname)).mpr hcalls
  obtain ⟨accepted, hvisit⟩ := (attends_append.mp h).2.2.1
  obtain rfl := removed_accepted hname hcalled (hgrown.sound.instr_live hb) hvisit
  exact h.mem_scheduled hs (accepts_of_ok hvisit)

theorem Attends.accepted_or_along (hs : st.program.Sound) (h : Attends settings st ids)
    (hstart : st.scheduled = []) {r : Replacement}
    (hr : r ∈ (visitAll settings.rules st ids).scheduled) (hlt : r.old.index < st.program.instrs.size) :
    (∃ k, ids[k]? = some r.old ∧
      accepts settings.rules (visitAll settings.rules st (ids.take k)) r.old = true) ∨
    r.new = none ∧ (st.program.Fetch r.old ∨ st.program.ElementPart r.old) := by
  rcases h.origin hs hr with hmem | ⟨xs, id, ys, heir, answer, along, rfl, hwork, hfound⟩
  · rw [hstart] at hmem
    cases hmem
  obtain ⟨hgrown, -, hvisit, -⟩ := h.split hs
  rcases hfound with rfl | ⟨hnone, halong⟩
  · refine .inl ⟨xs.length, by simp, ?_⟩
    rw [List.take_left]
    rw [visitAll_append, visitAll_cons, visitAll_nil] at hwork
    generalize visit settings.rules (visitAll settings.rules st xs) id = st' at hvisit hwork
    cases hvisit with
    | accepted haccepted => exact accepts_of_ok haccepted
    | declined => exact absurd hwork.entries (by simp)
  · have hcalls := fun {n} (hn : n ∉ "" :: Program.insertedCalls) =>
      (hgrown.calls_iff hlt hn).mp
    refine .inr ⟨hnone, (hwork.served r.old halong).2.part.imp ?_ ?_⟩
    · exact Or.imp (hcalls (by decide)) (hcalls (by decide))
    · rintro ⟨hpart, -⟩
      exact hpart.imp (hgrown.instr r.old hlt).1.symm.trans (hcalls (by decide))

theorem Attends.not_scheduled (hs : st.program.Sound) (h : Attends settings st ids)
    (hstart : st.scheduled = []) (hlt : i.index < st.program.instrs.size)
    (hdeclined : ∀ k, ids[k]? = some i →
      accepts settings.rules (visitAll settings.rules st (ids.take k)) i = false)
    (halone : ¬ (⟨i, none⟩ ∈ (visitAll settings.rules st ids).scheduled ∧
      (st.program.Fetch i ∨ st.program.ElementPart i))) :
    i ∉ (visitAll settings.rules st ids).scheduled.map (·.old) := by
  intro hmem
  obtain ⟨⟨old, new⟩, hr, rfl⟩ := List.mem_map.mp hmem
  rcases h.accepted_or_along hs hstart hr hlt with ⟨k, hk, haccepted⟩ | ⟨rfl, hpart⟩
  · rw [hdeclined k hk] at haccepted
    cases haccepted
  · exact halone ⟨hr, hpart⟩

/-! ## 2. What is left -/

variable {c c' : Compilation} {stats stats' : TransformStatistics}

theorem Went.call_before {run : RuleRun} {c₁ : Compilation} {q : Program} {b : BlockId} {j : InstrId}
    (hwent : Went settings s c run c₁) (hp : c.program.Sound) (hready : Ready run.scheduled c₁.program)
    (hspliced : Spliced run.scheduled.reverse c₁.program q) (hj : j ∈ (q.block b).instrs)
    (hname : name ∉ "" :: Program.insertedCalls) (hcalls : q.Calls j name) :
    j ∈ (c.program.block b).instrs ∧ c.program.Calls j name ∧
      j ∉ (lastOf settings s c).scheduled.map (·.old) := by
  obtain ⟨hframe, hinstr⟩ := hwent.sameFrame
  have hgrown := hwent.extends hp
  rcases hspliced.stood hready.reverse.olds hj with ⟨hj, hold⟩ | ⟨r, hr, hnew⟩
  · have hlast := (Program.Calls.congr hframe hinstr).mp (hspliced.calls_iff.mp hcalls)
    have hlt := hgrown.old_of_calls hlast fun hmem => hname (List.mem_cons_of_mem _ hmem)
    rw [(hframe.block b).2.1, hgrown.mem_instrs hp hlt] at hj
    rw [List.map_reverse, List.mem_reverse, hwent.scheduled] at hold
    exact ⟨hj, (hgrown.calls_iff hlt hname).mp hlast, hold⟩
  · -- what takes a place is a cast
    obtain ⟨bits, address, hguest⟩ := (hwent.attends.pending hp rfl).guests r
      (hwent.scheduled ▸ List.mem_reverse.mp hr) j hnew
    exact absurd ((hspliced.instr j).1.trans (hguest.congr hinstr).kind) hcalls.not_cast

/-- In a block that was visited no call of a removed name is left, and what the rules have declined
    is still there, in order. -/
theorem applyRules_housekeeping (settings : RuleSettings) (s : TransformSettings) (hp : c.program.Sound)
    (h : applyRules settings.rules s stats c = .ok stats' c') :
    let order := tried settings s c.program c.addresses
    (∀ b, (∃ i ∈ (c.program.block b).instrs, i ∈ order) → ∀ i ∈ (c.program.block b).instrs, i ∈ order) ∧
    (s.executionPathOnly = false → ∀ f ∈ c.program.liveFunctions, ∀ i ∈ c.program.instrsOf f, i ∈ order) ∧
    (∀ b, (∀ i ∈ (c.program.block b).instrs, i ∈ order) → ∀ j ∈ (c'.program.block b).instrs,
      ∀ name ∈ settings.removed, ¬ c'.program.Calls j name) ∧
    ∀ b (kept : List InstrId), kept.Sublist (c.program.block b).instrs →
      (∀ i ∈ kept, (∀ k, order[k]? = some i →
          accepts settings.rules (visitAll settings.rules (startOf c) (order.take k)) i = false) ∧
        ¬ (⟨i, none⟩ ∈ (lastOf settings s c).scheduled ∧
          (c.program.Fetch i ∨ c.program.ElementPart i))) →
      kept.Sublist (c'.program.block b).instrs := by
  obtain ⟨run, c₁, n, q, hwent, hready, -, hspliced, -, hq⟩ := applyRules_went hp h
  have hattends := hwent.attends
  rw [hq]
  refine ⟨fun b hb => hwent.entire b not_false hb, fun heverywhere f hf i hi => ?_,
    fun b hb j hj name hname hcalls => ?_, fun b kept hsub hkept => ?_⟩
  · rw [tried, if_neg (by simp [heverywhere])]
    exact List.mem_flatMap.mpr ⟨f, hf, hi⟩
  · obtain ⟨hstood, hcalled, hnot⟩ :=
      hwent.call_before hp hready hspliced hj (not_inserted_of_removed hname) hcalls
    exact hnot (hattends.removed_scheduled hp (hb j hstood) hname hcalled)
  · have hstays : ∀ i ∈ kept, splice run.scheduled.reverse i = [i] := by
      intro i hi
      have hlt := Program.instr_lt_of_parent (hp.mem_instrs.mp (hsub.subset hi))
      refine splice_of_not_mem ?_
      rw [List.map_reverse, List.mem_reverse, hwent.scheduled]
      exact hattends.not_scheduled hp rfl hlt (hkept i hi).1 (hkept i hi).2
    have hsame : kept.flatMap (splice run.scheduled.reverse) = kept :=
      (List.flatMap_congr hstays).trans (List.flatMap_singleton' kept)
    rw [hspliced.listed b, (hwent.sameFrame.1.block b).2.1, ← hsame]
    exact (hsub.trans ((hwent.extends hp).listed b)).flatMap _

/-- The references of a result are counted, a message is written, and a qubit is rotated. -/
def counting : Program where
  name := "counting"
  namedTypes := [("Qubit", none), ("Result", none), ("String", none)]
  functions := #[
    ⟨"__quantum__rt__result_get_one", .ptr (.named "Result"), [], false, none, none, [], [], false⟩,
    ⟨"__quantum__rt__result_update_reference_count", .void,
      [⟨none, .ptr (.named "Result")⟩, ⟨none, .int 32⟩], false, none, none, [], [], false⟩,
    ⟨"__quantum__rt__message", .void, [⟨none, .ptr (.named "String")⟩], false, none, none, [], [], false⟩,
    ⟨"__quantum__qis__h__body", .void, [⟨none, .ptr (.named "Qubit")⟩], false, none, none, [], [], false⟩,
    ⟨"Main", .void, [], false, none, none, [.pair "EntryPoint" none], [⟨0⟩], false⟩]
  blocks := #[⟨some "entry", some ⟨4⟩, [⟨0⟩, ⟨1⟩, ⟨2⟩, ⟨3⟩, ⟨4⟩, ⟨5⟩], false⟩]
  instrs := #[
    ⟨.call .none, .ptr (.named "Result"), [.func ⟨0⟩], some "one", some ⟨0⟩, false⟩,
    ⟨.call .none, .void, [.instr ⟨0⟩, .int 32 1, .func ⟨1⟩], none, some ⟨0⟩, false⟩,
    ⟨.call .none, .void, [.null (.ptr (.named "String")), .func ⟨2⟩], none, some ⟨0⟩, false⟩,
    ⟨.call .none, .void, [.null (.ptr (.named "Qubit")), .func ⟨3⟩], none, some ⟨0⟩, false⟩,
    ⟨.call .none, .void, [.instr ⟨0⟩, .int 32 (-1), .func ⟨1⟩], none, some ⟨0⟩, false⟩,
    ⟨.ret, .void, [], none, some ⟨0⟩, false⟩]

theorem applyRules_housekeeping_counting : ∃ stats c,
    applyRules ({} : RuleSettings).rules {} {} { program := counting } = .ok stats c ∧
    (∀ j ∈ (c.program.block ⟨0⟩).instrs,
      ¬ c.program.Calls j "__quantum__rt__result_update_reference_count" ∧
      ¬ c.program.Calls j "__quantum__rt__message") ∧
    [⟨0⟩, ⟨3⟩, ⟨5⟩].Sublist (c.program.block ⟨0⟩).instrs := by
  obtain ⟨stats, c, hrun, -⟩ := exists_ok
    (r := applyRules ({} : RuleSettings).rules {} {} { program := counting }) (P := fun _ => True)
    (by decide +kernel)
  obtain ⟨-, -, hgone, hkept⟩ := applyRules_housekeeping {} {} (c := { program := counting })
    (by decide +kernel) hrun
  have horder : tried {} {} counting {} = [⟨0⟩, ⟨1⟩, ⟨2⟩, ⟨3⟩, ⟨4⟩, ⟨5⟩] := by decide +kernel
  have hnone := hgone ⟨0⟩ (by rw [horder]; decide)
  refine ⟨stats, c, hrun, fun j hj => ⟨hnone j hj _ (by decide), hnone j hj _ (by decide)⟩, ?_⟩
  have hdeclined : ∀ i ∈ [⟨0⟩, ⟨3⟩, ⟨5⟩], (∀ k < 6, (tried {} {} counting {})[k]? = some i →
        accepts ({} : RuleSettings).rules (visitAll ({} : RuleSettings).rules
          (startOf { program := counting }) ((tried {} {} counting {}).take k)) i = false) ∧
      ⟨i, none⟩ ∉ (lastOf {} {} { program := counting }).scheduled := by decide +kernel
  refine hkept ⟨0⟩ _ (by decide) fun i hi => ⟨fun k hk => ?_, fun hmem => (hdeclined i hi).2 hmem.1⟩
  obtain ⟨hlt, -⟩ := List.getElem?_eq_some_iff.mp hk
  exact (hdeclined i hi).1 k (by rw [horder] at hlt; exact hlt) hk

end Transform

end QirProfile
