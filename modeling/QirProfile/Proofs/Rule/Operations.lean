import QirProfile.Proofs.Rule.Requests

/-!
# What a body asks of a runtime

Before any rule is tried, a call already says what it asks of a runtime that keeps qubits
(`Program.operation?`): to allocate so many, or to release what another call has allocated. Given what
has become of the calls before, this settles what a visit of the call asks of the allocator
(`Program.request?`).
-/

namespace QirProfile

open Allocator (Request)

variable {v callee : Value} {name : String} {site : InstrId}

/-! ## 1. Operations -/

/-- What a call asks of a runtime that keeps qubits. -/
inductive Operation where
  | allocate (count : Nat)
  /-- Gives back what a call has allocated. -/
  | release (site : InstrId)
  deriving DecidableEq

namespace Program

open Replacing (allocationName)

/-- The operation of a call. An allocation has a pointer for its result, an array has a constant size,
    and a release names the allocation directly. -/
def operation? (p : Program) (id : InstrId) : Option Operation :=
  match p.calledName? (.instr id), (p.instr id).operands with
  | some "__quantum__rt__qubit_allocate", [_] =>
    if (p.instr id).ty.isPtr then some (.allocate 1) else none
  | some "__quantum__rt__qubit_allocate_array", [.int _ size, _] =>
    if (p.instr id).ty.isPtr ∧ 0 ≤ size then some (.allocate size.toNat) else none
  | some "__quantum__rt__qubit_release", [.instr site, _] => some (.release site)
  | some "__quantum__rt__qubit_release_array", [.instr site, _] => some (.release site)
  | _, _ => none

/-- A release gives back what a call of its counterpart has allocated. -/
inductive Returns (p : Program) (id site : InstrId) : Prop where
  | qubit {callee : Value} (hid : p.Calls id "__quantum__rt__qubit_release")
      (hsite : p.Calls site "__quantum__rt__qubit_allocate")
      (h : (p.instr id).operands = [.instr site, callee])
  | array {callee : Value} (hid : p.Calls id "__quantum__rt__qubit_release_array")
      (hsite : p.Calls site "__quantum__rt__qubit_allocate_array")
      (h : (p.instr id).operands = [.instr site, callee])

/-- What a call asks of the allocator, given what has become of the calls before. The release of an
    empty array asks for nothing. -/
def request? (p : Program) (fates : InstrId → Option Fate) (id : InstrId) : Option (Option Request) :=
  match p.operation? id with
  | some (.allocate count) => some (some (.allocate (allocationName (p.instr id)) count))
  | some (.release site) =>
    match fates site with
    | some (.placed start count) => some (if count = 0 then none else some (.release start))
    | _ => none
  | none => none

variable {p : Program} {id site : InstrId} {name : String}

theorem calls_iff : p.Calls id name ↔ p.calledName? (.instr id) = some name := by
  unfold Calls calledName?
  cases hk : (p.instr id).calledFunction? with
  | none => simp [Value.toInstr?, hk]
  | some k => simp [Value.toInstr?, hk]

section

variable {v callee : Value}

theorem operation?_allocate (h : p.Calls id "__quantum__rt__qubit_allocate")
    (hoperands : (p.instr id).operands = [callee]) (hty : (p.instr id).ty.isPtr = true) :
    p.operation? id = some (.allocate 1) := by
  unfold operation?
  rw [calls_iff.mp h, hoperands]
  simp [hty]

theorem operation?_allocateArray {bits : Nat} {size : Int}
    (h : p.Calls id "__quantum__rt__qubit_allocate_array")
    (hoperands : (p.instr id).operands = [.int bits size, callee])
    (hty : (p.instr id).ty.isPtr = true) (hpos : 0 ≤ size) :
    p.operation? id = some (.allocate size.toNat) := by
  unfold operation?
  rw [calls_iff.mp h, hoperands]
  simp [hty, hpos]

theorem Returns.operation? (h : p.Returns id site) : p.operation? id = some (.release site) := by
  unfold Program.operation?
  cases h with
  | qubit hid _ h =>
    rw [calls_iff.mp hid, h]
    simp
  | array hid _ h =>
    rw [calls_iff.mp hid, h]
    simp

theorem operation?_cases {o : Operation} (h : p.operation? id = some o) :
    (o = .allocate 1 ∧ p.Calls id "__quantum__rt__qubit_allocate" ∧
        (∃ callee, (p.instr id).operands = [callee]) ∧ (p.instr id).ty.isPtr = true) ∨
      (∃ bits size, o = .allocate size.toNat ∧ p.Calls id "__quantum__rt__qubit_allocate_array" ∧
        (∃ callee, (p.instr id).operands = [.int bits size, callee]) ∧
        (p.instr id).ty.isPtr = true ∧ 0 ≤ size) ∨
      ∃ site name, o = .release site ∧ p.Calls id name ∧
        name ∈ ["__quantum__rt__qubit_release", "__quantum__rt__qubit_release_array"] ∧
        ∃ callee, (p.instr id).operands = [.instr site, callee] := by
  unfold operation? at h
  split at h
  · rename_i callee hname hoperands
    split at h <;> cases h
    exact .inl ⟨rfl, calls_iff.mpr hname, ⟨callee, hoperands⟩, ‹_›⟩
  · rename_i bits size callee hname hoperands
    split at h <;> cases h
    rename_i hfits
    exact .inr (.inl ⟨bits, size, rfl, calls_iff.mpr hname, ⟨callee, hoperands⟩, hfits⟩)
  · rename_i site callee hname hoperands
    cases h
    exact .inr (.inr ⟨site, _, rfl, calls_iff.mpr hname, by simp, callee, hoperands⟩)
  · rename_i site callee hname hoperands
    cases h
    exact .inr (.inr ⟨site, _, rfl, calls_iff.mpr hname, by simp, callee, hoperands⟩)
  · cases h

end

end Program

/-! ## 2. What visits ask for -/

theorem Value.Turned.int_iff {t : InstrId → InstrId} {w : Value} (h : Turned t v w) {bits : Nat}
    {n : Int} : w = .int bits n ↔ v = .int bits n := by
  cases h with
  | instr x => exact ⟨nofun, nofun⟩
  | same => exact Iff.rfl
  | inside hv hw =>
    constructor
    · rintro rfl
      cases hw
    · rintro rfl
      cases hv

theorem normalize_of_lt {start : Nat} (h : start < span 63) :
    Word.normalize start 64 = (start : Int) := by
  have hword : span 64 = 2 * span 63 := rfl
  have hbits : Word.bits 64 = 64 := rfl
  unfold Word.normalize
  rw [hbits, Int.bmod_def]
  have hmod : ((start : Int) % (span 64 : Nat)) = start := Int.emod_eq_of_lt (by omega) (by omega)
  rw [hmod, if_pos (by omega)]

namespace Replacing

open Program (Traces Grown Calls CallsWith PointsAt Returns pointer)
open Value (Turned)

variable {p : Program} {done : List InstrId} {fates : InstrId → Option Fate} {T : Traces}
  {s : RuleState Addresses} {id : InstrId}

/-- The calls of an instruction are of functions that are there. -/
def KnownCall (p : Program) (id : InstrId) : Prop :=
  ∀ k, (p.instr id).calledFunction? = some k → (p.func k).erased = false

/-- Allocations start at addresses that are readable as signed words, and no qubit is an empty
    array. -/
structure Sensible (p : Program) (fates : InstrId → Option Fate) : Prop where
  small : ∀ site start count, fates site = some (.placed start count) → start < span 63
  single : ∀ site start count, fates site = some (.placed start count) →
    p.Calls site "__quantum__rt__qubit_allocate" → count ≠ 0

/-- A release names its allocation directly, or nothing at all. -/
def Direct (p : Program) (id : InstrId) : Prop :=
  ∀ name ∈ ["__quantum__rt__qubit_release", "__quantum__rt__qubit_release_array"], p.Calls id name →
    (∃ site, p.Returns id site ∧ KnownCall p site) ∨
      ∀ v callee, (p.instr id).operands = [v, callee] → ∃ ty, v = .undef ty

section

variable (h : Following p done fates T s)

include h

theorem Following.calls_iff {i : InstrId} (hi : i.index < p.instrs.size) (hknown : KnownCall p i)
    : s.program.Calls i name ↔ p.Calls i name := by
  unfold Calls
  rw [(h.reading i hi).callee]
  refine exists_congr fun k => and_congr_right fun hk => ?_
  rw [h.func k (Program.func_lt_of_live (hknown k hk))]

theorem Following.placed_of_pointsAt {address : Int}
    (hsite : p.Calls site name) (hname : name ≠ "__quantum__rt__result_equal")
    (hknown : KnownCall p site) (hv : s.program.PointsAt (.instr (T.turned site)) address) :
    ∃ start count, fates site = some (.placed start count) ∧ address = Word.normalize start 64 := by
  obtain ⟨hcast, w, hw, haddress⟩ := hv
  rcases h.turned site with hself | ⟨start, count, hfate⟩ | hequal
  · rw [hself] at hcast
    have hkind := Pattern.test_cast hcast
    rw [(h.instr site hsite.lt).1] at hkind
    exact absurd hkind hsite.not_cast
  · obtain ⟨-, -, hpointer, -⟩ := h.fated site _ hfate
    refine ⟨start, count, hfate, ?_⟩
    rw [Program.operandsOf, hpointer] at hw
    obtain rfl := (List.cons.inj hw).1
    exact (Option.some.inj haddress).symm
  · rw [h.calls_iff hsite.lt hknown] at hequal
    exact absurd (hsite.unique hequal) hname

variable {b : BlockId} (hid : id ∈ (p.block b).instrs)

include hid

theorem Following.sameName (hnew : id ∉ done) :
    allocationName (s.program.instr id) = allocationName (p.instr id) := by
  unfold allocationName
  rw [h.named id (Program.instr_lt_of_parent (h.base.mem_instrs.mp hid)) hnew]

variable (hknown : KnownCall p id)

include hknown

theorem Following.callsWith_nil : s.program.CallsWith id name [] ↔
    p.Calls id name ∧ ∃ callee, (p.instr id).operands = [callee] := by
  have hlt := Program.instr_lt_of_parent (h.base.mem_instrs.mp hid)
  have hlive := h.base.instr_live hid
  have hoperands := h.operands id hlt hlive
  constructor
  · rintro ⟨-, hcalls, callee, heq⟩
    rw [heq, List.nil_append] at hoperands
    obtain ⟨w, _, -, hnil, hw⟩ := List.forall₂_cons_right_iff.mp hoperands
    obtain rfl := List.forall₂_nil_right_iff.mp hnil
    exact ⟨(h.calls_iff hlt hknown).mp hcalls, w, hw⟩
  · rintro ⟨hcalls, w, hw⟩
    rw [hw] at hoperands
    obtain ⟨callee, _, -, hnil, heq⟩ := List.forall₂_cons_left_iff.mp hoperands
    obtain rfl := List.forall₂_nil_left_iff.mp hnil
    exact ⟨(h.instr id hlt).2.2.2.trans hlive, (h.calls_iff hlt hknown).mpr hcalls, callee, heq⟩

theorem Following.argument_back (hcalls : s.program.CallsWith id name [v]) :
    p.Calls id name ∧ ∃ w callee, (p.instr id).operands = [w, callee] ∧ Turned T.turned w v := by
  have hlt := Program.instr_lt_of_parent (h.base.mem_instrs.mp hid)
  have hoperands := h.operands id hlt (h.base.instr_live hid)
  obtain ⟨-, hcalls, callee, heq⟩ := hcalls
  rw [heq, List.singleton_append] at hoperands
  obtain ⟨w, _, hturned, hrest, hw⟩ := List.forall₂_cons_right_iff.mp hoperands
  obtain ⟨callee', _, -, hnil, rfl⟩ := List.forall₂_cons_right_iff.mp hrest
  obtain rfl := List.forall₂_nil_right_iff.mp hnil
  exact ⟨(h.calls_iff hlt hknown).mp hcalls, w, callee', hw, hturned⟩

theorem Following.argument {w : Value} (hcalls : p.Calls id name)
    (hw : (p.instr id).operands = [w, callee]) :
    ∃ v, s.program.CallsWith id name [v] ∧ Turned T.turned w v := by
  have hlt := Program.instr_lt_of_parent (h.base.mem_instrs.mp hid)
  have hlive := h.base.instr_live hid
  have hoperands := h.operands id hlt hlive
  rw [hw] at hoperands
  obtain ⟨v, _, hturned, hrest, heq⟩ := List.forall₂_cons_left_iff.mp hoperands
  obtain ⟨callee', _, -, hnil, rfl⟩ := List.forall₂_cons_left_iff.mp hrest
  obtain rfl := List.forall₂_nil_left_iff.mp hnil
  exact ⟨v, ⟨(h.instr id hlt).2.2.2.trans hlive, (h.calls_iff hlt hknown).mpr hcalls, callee', heq⟩,
    hturned⟩

theorem Following.returned {address : Int} (hdirect : Direct p id)
    (hname : name ∈ ["__quantum__rt__qubit_release", "__quantum__rt__qubit_release_array"])
    (hcalls : s.program.CallsWith id name [v]) (hv : s.program.PointsAt v address) :
    ∃ site start count, p.Returns id site ∧ v = .instr (T.turned site) ∧
      fates site = some (.placed start count) ∧ address = Word.normalize start 64 := by
  obtain ⟨hcalls, w, callee, hoperands, hturned⟩ := h.argument_back hid hknown hcalls
  rcases hdirect name hname hcalls with ⟨site, hreturns, hsite⟩ | hundef
  · have hw : w = .instr site := by
      have hsame := Program.operation?_cases hreturns.operation?
      cases hreturns with
      | qubit _ _ he | array _ _ he =>
        rw [hoperands] at he
        exact (List.cons.inj he).1
    subst hw
    have hv' : v = .instr (T.turned site) := by
      cases hturned with
      | instr => rfl
      | same hnone => cases hnone
      | inside hparts => cases hparts
    subst hv'
    obtain ⟨start, count, hfate, haddress⟩ : ∃ start count,
        fates site = some (.placed start count) ∧ address = Word.normalize start 64 := by
      cases hreturns with
      | qubit _ hcalled | array _ hcalled =>
        exact h.placed_of_pointsAt hcalled (by decide) hsite hv
    exact ⟨site, start, count, hreturns, rfl, hfate, haddress⟩
  · obtain ⟨ty, rfl⟩ := hundef w callee hoperands
    obtain ⟨hcast, -⟩ := hv
    cases hturned with
    | same => cases hcast
    | inside hparts => cases hparts

theorem Following.asked {r : Option Request} (hnew : id ∉ done) (hdirect : Direct p id)
    (hfates : Sensible p fates) (hasks : Asks s id r) : p.request? fates id = some r := by
  have hlt := Program.instr_lt_of_parent (h.base.mem_instrs.mp hid)
  have hname := h.sameName hid hnew
  have hty := (h.instr id hlt).2.1
  unfold Program.request?
  cases hasks with
  | qubit hcalls hptr =>
    obtain ⟨hcalls, callee, hoperands⟩ := (h.callsWith_nil hid hknown).mp hcalls
    rw [hty] at hptr
    rw [Program.operation?_allocate hcalls hoperands hptr, hname]
  | array hcalls hsize hpos hptr =>
    obtain ⟨bits, rfl⟩ := Value.toInt?_eq_some hsize
    obtain ⟨hcalls, w, callee, hoperands, hturned⟩ := h.argument_back hid hknown hcalls
    rw [hturned.int_iff.mp rfl] at hoperands
    rw [hty] at hptr
    rw [Program.operation?_allocateArray hcalls hoperands hptr hpos, hname]
  | release hcalls hv hpos =>
    obtain ⟨site, start, count, hreturns, -, hfate, haddress⟩ :=
      h.returned hid hknown hdirect List.mem_cons_self hcalls hv
    have hcount : count ≠ 0 := by
      cases hreturns with
      | qubit _ hsite => exact hfates.single site start count hfate hsite
      | array hother =>
        have hcalls' := (h.argument_back hid hknown hcalls).1
        exact absurd (hcalls'.unique hother) (by decide)
    simp only [hreturns.operation?, hfate, if_neg hcount]
    rw [haddress, normalize_of_lt (hfates.small site start count hfate), Int.toNat_natCast]
  | releaseArray hcalls hv hpos hfull =>
    obtain ⟨site, start, count, hreturns, rfl, hfate, haddress⟩ :=
      h.returned hid hknown hdirect (List.mem_cons_of_mem _ List.mem_cons_self) hcalls hv
    obtain ⟨-, -, -, hempty, -⟩ := h.fated site _ hfate
    have hcount : count ≠ 0 := by
      intro hzero
      have hmem := hempty.mpr hzero
      simp [Value.toInstr?, hmem] at hfull
    simp only [hreturns.operation?, hfate, if_neg hcount]
    rw [haddress, normalize_of_lt (hfates.small site start count hfate), Int.toNat_natCast]
  | releaseEmpty hcalls hv hzero =>
    obtain ⟨site, start, count, hreturns, rfl, hfate, haddress⟩ :=
      h.returned hid hknown hdirect (List.mem_cons_of_mem _ List.mem_cons_self) hcalls hv
    obtain ⟨-, -, -, hempty, -⟩ := h.fated site _ hfate
    have hcount : count = 0 := by
      refine hempty.mp ?_
      simpa [Value.toInstr?] using hzero
    simp only [hreturns.operation?, hfate, if_pos hcount]

omit hid hknown in
theorem Following.pointsAt {start count : Nat}
    (hfate : fates site = some (.placed start count)) :
    s.program.PointsAt (.instr (T.turned site)) (Word.normalize start 64) := by
  obtain ⟨-, -, hpointer, -⟩ := h.fated site _ hfate
  refine ⟨?_, .ofInt 64 start, ?_, rfl⟩
  · simp [Program.isCast, Program.liveKind?, Value.toInstr?, hpointer, pointer]
  · rw [Program.operandsOf, hpointer]
    rfl

/-- A call asks the allocator for what it asks a runtime for. -/
theorem Following.asks {r : Option Request} (hnew : id ∉ done) (hdirect : Direct p id)
    (hfates : Sensible p fates) (hr : p.request? fates id = some r) : Asks s id r := by
  have hlt := Program.instr_lt_of_parent (h.base.mem_instrs.mp hid)
  have hname := h.sameName hid hnew
  have hty := (h.instr id hlt).2.1
  unfold Program.request? at hr
  cases ho : p.operation? id with
  | none =>
    rw [ho] at hr
    cases hr
  | some o =>
    rw [ho] at hr
    rcases Program.operation?_cases ho with ⟨rfl, hcalls, ⟨callee, hoperands⟩, hptr⟩ |
      ⟨bits, size, rfl, hcalls, ⟨callee, hoperands⟩, hptr, hpos⟩ |
      ⟨site, name, rfl, hcalls, hmem, callee, hoperands⟩
    · cases hr
      rw [← hname]
      exact .qubit ((h.callsWith_nil hid hknown).mpr ⟨hcalls, callee, hoperands⟩) (hty ▸ hptr)
    · cases hr
      obtain ⟨v, hwith, hturned⟩ := h.argument hid hknown hcalls hoperands
      rw [hturned.int_iff.mpr rfl] at hwith
      rw [← hname]
      exact .array hwith rfl hpos (hty ▸ hptr)
    · obtain ⟨v, hwith, hturned⟩ := h.argument hid hknown hcalls hoperands
      have hv : v = .instr (T.turned site) := by
        cases hturned with
        | instr => rfl
        | same hnone => cases hnone
        | inside hparts => cases hparts
      subst hv
      have hreturns : p.Returns id site := by
        rcases hdirect name hmem hcalls with ⟨other, hother, -⟩ | hundef
        · have hsame := hother.operation?.symm.trans ho
          rw [Option.some_inj] at hsame
          exact Operation.release.inj hsame ▸ hother
        · obtain ⟨ty, hundef⟩ := hundef _ callee hoperands
          cases hundef
      cases hfate : fates site with
      | none => simp [hfate] at hr
      | some fate =>
        cases fate with
        | dropped => simp [hfate] at hr
        | placed start count =>
          simp only [hfate, Option.some_inj] at hr
          have hpoints := h.pointsAt hfate
          have haddress := normalize_of_lt (hfates.small site start count hfate)
          have hpos : 0 ≤ Word.normalize start 64 := by
            rw [haddress]
            exact Int.natCast_nonneg start
          have hstart : (Word.normalize start 64).toNat = start := by
            rw [haddress, Int.toNat_natCast]
          obtain ⟨-, -, -, hempty, -⟩ := h.fated site _ hfate
          rcases hreturns with ⟨hrelease, hsite, -⟩ | ⟨hrelease, hsite, -⟩
          · rw [if_neg (hfates.single site start count hfate hsite)] at hr
            rw [← hr, ← hstart]
            exact .release (hcalls.unique hrelease ▸ hwith) hpoints hpos
          · by_cases hcount : count = 0
            · rw [if_pos hcount] at hr
              rw [← hr]
              refine .releaseEmpty (hcalls.unique hrelease ▸ hwith) hpoints ?_
              simpa [Value.toInstr?] using hempty.mpr hcount
            · rw [if_neg hcount] at hr
              rw [← hr, ← hstart]
              refine .releaseArray (hcalls.unique hrelease ▸ hwith) hpoints hpos ?_
              simpa [Value.toInstr?] using mt hempty.mp hcount

end

end Replacing

end QirProfile
