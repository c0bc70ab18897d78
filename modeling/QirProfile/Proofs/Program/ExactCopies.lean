import Mathlib.Data.List.Forall2
import Mathlib.Data.List.Induction
import QirProfile.Proofs.Program.Exchanges
import QirProfile.Proofs.Program.Readings

/-!
# A copy is its source with some arguments fixed

`ExactCopy` says what a copy is without the renaming that makes it: which node of the copy stands for
which node of the source is given by two maps, and `Image` says what becomes of a value under them. An
argument becomes the value that is given for it or the argument that its parameter has moved to, a
block or an instruction of the source becomes its copy, and everything else stays what it is.
-/

namespace QirProfile

open List (Forall₂)

namespace Program

variable {p q : Program} {source copy : FuncId} {constants : List (Nat × Value)}

/-! ## 1. What an exact copy is -/

/-- A part of a function: one of its arguments, blocks or instructions. An argument beyond the
    parameters belongs to nothing. -/
def LocalTo (p : Program) (f : FuncId) : Value → Prop
  | .arg g k => g = f ∧ k < (p.func f).params.length
  | .block b => (p.block b).parent = some f
  | .instr i => p.functionOf? i = some f
  | _ => False

theorem LocalTo.isLocal {f : FuncId} {v : Value} (h : p.LocalTo f v) : v.isLocal = true := by
  cases v with
  | arg _ _ | block _ | instr _ => rfl
  | _ => exact h.elim

/-- The value given for a place; of two the later counts. -/
def Given (constants : List (Nat × Value)) (k : Nat) (v : Value) : Prop :=
  ∃ front back, constants = front ++ (k, v) :: back ∧ ∀ c ∈ back, c.1 ≠ k

/-- The places of `n` parameters for which no value is given, in order. -/
def keptPlaces (constants : List (Nat × Value)) (n : Nat) : List Nat :=
  (List.range n).filter fun k => k ∉ constants.map Prod.fst

/-- What a value of the source becomes in the copy, whose blocks and instructions are given by `β`
    and `ι`. -/
inductive Image (p : Program) (source : FuncId) (constants : List (Nat × Value)) (copy : FuncId)
    (β : BlockId → BlockId) (ι : InstrId → InstrId) : Value → Value → Prop
  | given {k : Nat} {v : Value} : k < (p.func source).params.length → Given constants k v →
      Image p source constants copy β ι (.arg source k) v
  | kept {k m : Nat} : (keptPlaces constants (p.func source).params.length)[m]? = some k →
      Image p source constants copy β ι (.arg source k) (.arg copy m)
  | block {b : BlockId} : (p.block b).parent = some source →
      Image p source constants copy β ι (.block b) (.block (β b))
  | instr {i : InstrId} : p.functionOf? i = some source →
      Image p source constants copy β ι (.instr i) (.instr (ι i))
  | other {v : Value} : ¬ p.LocalTo source v → Image p source constants copy β ι v v

/-- The kind of a copied instruction: a phi has the images of its blocks, and every other kind is
    kept. -/
inductive KindImage (image : Value → Value → Prop) : InstrKind → InstrKind → Prop
  | phi {blocks blocks' : List BlockId} :
      Forall₂ (fun b c => image (.block b) (.block c)) blocks blocks' →
      KindImage image (.phi blocks) (.phi blocks')
  | plain {kind : InstrKind} : (∀ blocks, kind ≠ .phi blocks) → KindImage image kind kind

/-- The function `copy` of `q` is the function `source` of `p` with some arguments fixed, and nothing
    else is new. -/
structure ExactCopy (p : Program) (source : FuncId) (constants : List (Nat × Value)) (q : Program)
    (copy : FuncId) (β : BlockId → BlockId) (ι : InstrId → InstrId) : Prop where
  /-- The copy has a handle and a name of its own. -/
  handle : copy = ⟨p.functions.size⟩
  name : p.isTaken (q.func copy).name = false
  live : (q.func copy).erased = false
  head : (q.func copy).attributes = (p.func source).attributes ∧
    (q.func copy).linkage = (p.func source).linkage ∧
    (q.func copy).unnamedAddr = (p.func source).unnamedAddr ∧
    (q.func copy).ret = (p.func source).ret ∧ (q.func copy).varArg = (p.func source).varArg
  params : (q.func copy).params = (keptPlaces constants (p.func source).params.length).filterMap
    fun k => (p.func source).params[k]?
  /-- Blocks and instructions correspond one to one, in order. -/
  blocks : (q.func copy).blocks = (p.func source).blocks.map β
  instrs : ∀ b ∈ (p.func source).blocks, (q.block (β b)).instrs = (p.block b).instrs.map ι
  block : ∀ b ∈ (p.func source).blocks, (q.block (β b)).name = (p.block b).name ∧
    (q.block (β b)).parent = some copy ∧ (q.block (β b)).erased = false
  instr : ∀ i ∈ p.instrsOf source, (q.instr (ι i)).name = (p.instr i).name ∧
    (q.instr (ι i)).ty = (p.instr i).ty ∧ (q.instr (ι i)).erased = false ∧
    (q.instr (ι i)).parent = (p.instr i).parent.map β
  kind : ∀ i ∈ p.instrsOf source,
    KindImage (Image p source constants copy β ι) (p.instr i).kind (q.instr (ι i)).kind
  operands : ∀ i ∈ p.instrsOf source,
    Forall₂ (Image p source constants copy β ι) (p.instr i).operands (q.instr (ι i)).operands
  newBlocks : ∀ b ∈ (p.func source).blocks, p.blocks.size ≤ (β b).index ∧
    ∀ c ∈ (p.func source).blocks, β b = β c → b = c
  newInstrs : ∀ i ∈ p.instrsOf source, p.instrs.size ≤ (ι i).index ∧
    ∀ j ∈ p.instrsOf source, ι i = ι j → i = j
  /-- Nothing of the source is left in the copy. -/
  apart : ∀ i ∈ q.instrsOf copy, (∀ v ∈ (q.instr i).operands, ∀ w, w.Occurs v →
    ¬ q.LocalTo source w) ∧ ∀ b ∈ (q.instr i).phiBlocks, ¬ q.LocalTo source (.block b)
  /-- What was there is as it was, and what is new belongs to the copy. -/
  functions : q.functions = p.functions.push (q.func copy)
  oldBlocks : ∀ b, b.index < p.blocks.size → q.block b = p.block b
  oldInstrs : ∀ i, i.index < p.instrs.size → q.instr i = p.instr i
  sizes : q.blocks.size = p.blocks.size + (p.func source).blocks.length ∧
    q.instrs.size = p.instrs.size + (p.instrsOf source).length
  rest : q = { p with functions := q.functions, blocks := q.blocks, instrs := q.instrs }

/-- Why no copy can be made: the function is gone, or a value is given for a place where there is no
    parameter. -/
inductive Refused (p : Program) (source : FuncId) (constants : List (Nat × Value)) :
    ProgramError → Prop
  | gone : (p.func source).erased = true → Refused p source constants (.erasedFunction source)
  | beyond {c : Nat × Value} : (p.func source).erased = false → c ∈ constants →
      (p.func source).params.length ≤ c.1 →
      Refused p source constants (.invalidArgument (p.func source).name c.1)

/-! ## 2. Parameters -/

theorem givenFor?_eq_some {k : Nat} {v : Value} :
    givenFor? constants k = some v ↔ Given constants k v := by
  unfold givenFor? Given
  constructor
  · intro h
    obtain ⟨c, hfind, rfl⟩ := Option.map_eq_some_iff.mp h
    obtain ⟨hc, before, after, hreverse, hbefore⟩ := List.find?_eq_some_iff_append.mp hfind
    obtain rfl : c.1 = k := beq_iff_eq.mp hc
    refine ⟨after.reverse, before.reverse, ?_, fun d hd => ?_⟩
    · rw [← List.reverse_reverse constants, hreverse]
      simp
    · simpa using hbefore d (List.mem_reverse.mp hd)
  · rintro ⟨front, back, rfl, hback⟩
    have hnone : back.reverse.find? (·.1 == k) = none := by
      simpa [List.find?_eq_none] using hback
    simp [hnone]

theorem givenFor?_eq_none {k : Nat} :
    givenFor? constants k = none ↔ k ∉ constants.map Prod.fst := by
  rw [givenFor?, Option.map_eq_none_iff, List.find?_eq_none]
  simp only [List.mem_reverse, beq_iff_eq, List.mem_map, not_exists, not_and]

theorem keptPlaces_succ (constants : List (Nat × Value)) (n : Nat) :
    keptPlaces constants (n + 1) =
      keptPlaces constants n ++ if n ∈ constants.map Prod.fst then [] else [n] := by
  rw [keptPlaces, List.range_succ, List.filter_append, keptPlaces]
  congr 1
  split_ifs with h <;> simp [h]

theorem keptPlaces_prefix {k n : Nat} (h : k ≤ n) :
    keptPlaces constants k <+: keptPlaces constants n := by
  induction h with
  | refl => exact List.prefix_refl _
  | step _ ih =>
    rw [keptPlaces_succ]
    exact ih.trans (List.prefix_append _ _)

theorem lt_of_mem_keptPlaces {k n : Nat} (h : k ∈ keptPlaces constants n) : k < n :=
  List.mem_range.mp (List.mem_filter.mp h).1

theorem getElem?_keptPlaces {k n : Nat} (hk : k < n) (hkept : k ∉ constants.map Prod.fst) :
    (keptPlaces constants n)[(keptPlaces constants k).length]? = some k := by
  have hprefix : keptPlaces constants (k + 1) <+: keptPlaces constants n :=
    keptPlaces_prefix (Nat.succ_le_of_lt hk)
  obtain ⟨rest, hrest⟩ := hprefix
  rw [← hrest, keptPlaces_succ, if_neg hkept]
  simp

theorem getElem?_paramValues {ps : List Param} {index k : Nat} (hk : k < ps.length) :
    (paramValues copy constants index (keptPlaces constants index).length ps)[k]? =
      some ((givenFor? constants (index + k)).getD
        (.arg copy (keptPlaces constants (index + k)).length)) := by
  induction ps generalizing index k with
  | nil => cases hk
  | cons x ps ih =>
    have hnext : paramValues copy constants index (keptPlaces constants index).length (x :: ps) =
        (givenFor? constants index).getD (.arg copy (keptPlaces constants index).length) ::
          paramValues copy constants (index + 1) (keptPlaces constants (index + 1)).length ps := by
      rw [paramValues, keptPlaces_succ]
      cases hgiven : givenFor? constants index with
      | some v =>
        have hmem : index ∈ constants.map Prod.fst := by
          by_contra hnot
          rw [givenFor?_eq_none.mpr hnot] at hgiven
          cases hgiven
        rw [if_pos hmem, List.append_nil]
        rfl
      | none =>
        rw [if_neg (givenFor?_eq_none.mp hgiven), List.length_append]
        rfl
    rw [hnext]
    cases k with
    | zero => rfl
    | succ k =>
      rw [List.getElem?_cons_succ, ih (Nat.lt_of_succ_lt_succ hk), Nat.add_right_comm,
        Nat.add_assoc]

theorem params_kept (constants : List (Nat × Value)) (ps : List Param) :
    (ps.zipIdx.filter fun (_, i) => (givenFor? constants i).isNone).map (·.1) =
      (keptPlaces constants ps.length).filterMap fun k => ps[k]? := by
  induction ps using List.reverseRecOn with
  | nil => rfl
  | append_singleton ps x ih =>
    have hfront : (keptPlaces constants ps.length).filterMap (fun k => (ps ++ [x])[k]?) =
        (keptPlaces constants ps.length).filterMap fun k => ps[k]? := by
      refine List.filterMap_congr fun k hk => ?_
      rw [List.getElem?_append_left (lt_of_mem_keptPlaces hk)]
    rw [List.zipIdx_append, List.filter_append, List.map_append, ih, List.length_append,
      List.length_singleton, keptPlaces_succ, List.filterMap_append, hfront]
    congr 1
    by_cases hmem : ps.length ∈ constants.map Prod.fst
    · have hgiven : givenFor? constants ps.length ≠ none := fun h => givenFor?_eq_none.mp h hmem
      simp [if_pos hmem, hgiven]
    · simp [if_neg hmem, givenFor?_eq_none.mpr hmem]

/-! ## 3. Images -/

variable (hp : p.Sound)

theorem image_arg (k : Nat) :
    Image p source constants ⟨p.functions.size⟩ (p.copyRenaming source constants).block
      (p.copyRenaming source constants).instrId (.arg source k)
      ((p.copyRenaming source constants).value (.arg source k)) := by
  have hvalue : (p.copyRenaming source constants).value (.arg source k) =
      ((paramValues ⟨p.functions.size⟩ constants 0 0 (p.func source).params)[k]?).getD
        (.arg source k) := by
    simp [Renaming.value, copyRenaming]
  rw [hvalue]
  by_cases hk : k < (p.func source).params.length
  · have hparam : (paramValues ⟨p.functions.size⟩ constants 0 0 (p.func source).params)[k]? =
        some ((givenFor? constants (0 + k)).getD
          (.arg ⟨p.functions.size⟩ (keptPlaces constants (0 + k)).length)) :=
      getElem?_paramValues hk
    rw [Nat.zero_add] at hparam
    rw [hparam, Option.getD_some]
    cases hgiven : givenFor? constants k with
    | some v => exact .given hk (givenFor?_eq_some.mp hgiven)
    | none => exact .kept (getElem?_keptPlaces hk (givenFor?_eq_none.mp hgiven))
  · rw [List.getElem?_eq_none (by rw [length_paramValues]; exact Nat.not_lt.mp hk)]
    exact .other fun h => hk h.2

include hp

theorem image_block (b : BlockId) :
    Image p source constants ⟨p.functions.size⟩ (p.copyRenaming source constants).block
      (p.copyRenaming source constants).instrId (.block b)
      (.block ((p.copyRenaming source constants).block b)) := by
  by_cases hb : b ∈ (p.func source).blocks
  · exact .block (hp.mem_blocks.mp hb)
  · have hsame : (p.copyRenaming source constants).block b = b := by
      have hnone : (p.copyRenaming source constants).blocks.idxOf? b = none :=
        List.idxOf?_eq_none_iff.mpr hb
      rw [Renaming.block, hnone]
    rw [hsame]
    exact .other fun h => hb (hp.mem_blocks.mpr h)

theorem image_instr (i : InstrId) :
    Image p source constants ⟨p.functions.size⟩ (p.copyRenaming source constants).block
      (p.copyRenaming source constants).instrId (.instr i)
      (.instr ((p.copyRenaming source constants).instrId i)) := by
  by_cases hi : i ∈ p.instrsOf source
  · exact .instr (hp.mem_instrsOf.mp hi)
  · have hsame : (p.copyRenaming source constants).instrId i = i := by
      have hnone : (p.copyRenaming source constants).instrs.idxOf? i = none :=
        List.idxOf?_eq_none_iff.mpr hi
      rw [Renaming.instrId, hnone]
    rw [hsame]
    exact .other fun h => hi (hp.mem_instrsOf.mpr h)

theorem image_value (v : Value) :
    Image p source constants ⟨p.functions.size⟩ (p.copyRenaming source constants).block
      (p.copyRenaming source constants).instrId v ((p.copyRenaming source constants).value v) := by
  cases v with
  | arg f k =>
    by_cases hf : f = source
    · rw [hf]
      exact image_arg k
    · have hsame : (p.copyRenaming source constants).value (.arg f k) = .arg f k := if_neg hf
      rw [hsame]
      exact .other fun h => hf h.1
  | block b => exact image_block hp b
  | instr i =>
    rw [Renaming.value_instr]
    exact image_instr hp i
  | _ => exact .other id

theorem image_kind (kind : InstrKind) :
    KindImage (Image p source constants ⟨p.functions.size⟩ (p.copyRenaming source constants).block
      (p.copyRenaming source constants).instrId) kind
      ((p.copyRenaming source constants).kind kind) := by
  unfold Renaming.kind
  split
  · refine .phi ?_
    rw [List.forall₂_map_right_iff, List.forall₂_same]
    exact fun b _ => image_block hp b
  · rename_i hplain
    exact .plain hplain

omit hp

theorem Image.apart {β : BlockId → BlockId} {ι : InstrId → InstrId} {v v' : Value}
    (h : Image p source constants copy β ι v v') (hflat : v.Flat)
    (hgiven : ∀ c ∈ constants, ∀ w, p.LocalTo source w → ¬ w.Occurs c.2)
    (hback : ∀ w, q.LocalTo source w → p.LocalTo source w)
    (hcopies : ¬ q.LocalTo source v') {w : Value} (hw : w.Occurs v') : ¬ q.LocalTo source w := by
  intro hlocal
  have hself : v'.isLocal = true → False := fun hv' => by
    obtain rfl := Value.mentions_of_isLocal hv' hw.mentions
    exact hcopies hlocal
  cases h with
  | given _ hk =>
    obtain ⟨front, back, rfl, -⟩ := hk
    exact hgiven _ (List.mem_append_right _ List.mem_cons_self) w (hback w hlocal) hw
  | kept _ => exact hself rfl
  | block _ => exact hself rfl
  | instr _ => exact hself rfl
  | other hv =>
    obtain rfl := hflat w hlocal.isLocal hw.mentions
    exact hv (hback w hlocal)

/-! ## 4. Copies -/

theorem specialise_refused (h : (p.func source).erased = true ∨
    ∃ c ∈ constants, (p.func source).params.length ≤ c.1) :
    ∃ e, p.specialise source constants = .error e ∧ p.Refused source constants e := by
  unfold specialise
  dsimp only
  cases hlive : (p.func source).erased with
  | true => exact ⟨_, if_pos rfl, .gone hlive⟩
  | false =>
    obtain ⟨c, hc, hbeyond⟩ := h.resolve_left (by rw [hlive]; exact Bool.false_ne_true)
    rw [if_neg Bool.false_ne_true]
    cases hmin : ((constants.map (·.1)).filter ((p.func source).params.length ≤ ·)).min? with
    | none =>
      have hnone := List.filter_eq_nil_iff.mp (List.min?_eq_none_iff.mp hmin) c.1
        (List.mem_map_of_mem hc)
      exact absurd (decide_eq_true hbeyond) hnone
    | some k =>
      obtain ⟨hk, hle⟩ := List.mem_filter.mp (List.min?_mem hmin)
      obtain ⟨d, hd, rfl⟩ := List.mem_map.mp hk
      exact ⟨_, rfl, .beyond hlive hd (of_decide_eq_true hle)⟩

theorem localTo_withCopy (hp : p.Sound) (hlive : (p.func source).erased = false) {w : Value}
    (h : (p.withCopy source constants).LocalTo source w) : p.LocalTo source w := by
  have hlt := func_lt_of_live hlive
  have hfunc : (p.withCopy source constants).func source = p.func source := func_withCopy_old hlt
  have hq := (evolves_withCopy p source constants hp).1
  cases w with
  | arg f k => exact ⟨h.1, hfunc ▸ h.2⟩
  | block b =>
    have hmem := hq.mem_blocks.mpr h
    rw [hfunc] at hmem
    exact hp.mem_blocks.mp hmem
  | instr i =>
    rcases stands_withCopy hp h with ⟨hin, -⟩ | ⟨rfl, -⟩
    · exact hin
    · exact absurd hlt (Nat.lt_irrefl _)
  | _ => exact h.elim

theorem not_localTo_image (hp : p.Sound) (hlive : (p.func source).erased = false) {v : Value}
    (hgiven : ∀ c ∈ constants, ∀ w, p.LocalTo source w → ¬ w.Occurs c.2) :
    ¬ (p.withCopy source constants).LocalTo source ((p.copyRenaming source constants).value v) := by
  have hlt := func_lt_of_live hlive
  have hne : (⟨p.functions.size⟩ : FuncId) ≠ source := by
    rintro rfl
    exact Nat.lt_irrefl _ hlt
  intro hlocal
  generalize himage : (p.copyRenaming source constants).value v = v' at hlocal
  have h : Image p source constants ⟨p.functions.size⟩ (p.copyRenaming source constants).block
      (p.copyRenaming source constants).instrId v ((p.copyRenaming source constants).value v) :=
    image_value hp v
  rw [himage] at h
  cases h with
  | given _ hk =>
    obtain ⟨front, back, rfl, -⟩ := hk
    exact hgiven _ (List.mem_append_right _ List.mem_cons_self) _
      (localTo_withCopy hp hlive hlocal) .here
  | kept _ => exact hne hlocal.1
  | block hb => exact hne (Option.some.inj ((parent_withCopy_new hp hb).symm.trans hlocal))
  | instr hi => exact hne (Option.some.inj ((functionOf_withCopy_new hp hi).symm.trans hlocal))
  | other hv => exact hv (localTo_withCopy hp hlive hlocal)

theorem mem_phiBlocks_copied {r : Renaming} {i : Instr} {b : BlockId}
    (hb : b ∈ (r.instr i).phiBlocks) : ∃ c, r.block c = b := by
  unfold Instr.phiBlocks Renaming.instr Renaming.kind at hb
  dsimp only at hb
  split at hb
  · rename_i hkind
    split at hkind
    · cases hkind
      obtain ⟨c, -, rfl⟩ := List.mem_map.mp hb
      exact ⟨c, rfl⟩
    · rename_i hplain
      exact absurd hkind (hplain _)
  · cases hb

section

variable (hp : p.Sound) (hlive : (p.func source).erased = false)
  (hflat : ∀ i ∈ p.instrsOf source, ∀ v ∈ (p.instr i).operands, v.Flat)
  (hgiven : ∀ c ∈ constants, ∀ w, p.LocalTo source w → ¬ w.Occurs c.2)

include hp hlive hflat hgiven

theorem withCopy_apart {i : InstrId}
    (hi : i ∈ (p.withCopy source constants).instrsOf ⟨p.functions.size⟩) :
    (∀ v ∈ ((p.withCopy source constants).instr i).operands, ∀ w, w.Occurs v →
      ¬ (p.withCopy source constants).LocalTo source w) ∧
    ∀ b ∈ ((p.withCopy source constants).instr i).phiBlocks,
      ¬ (p.withCopy source constants).LocalTo source (.block b) := by
  have hq := (evolves_withCopy p source constants hp).1
  have hback : ∀ w, (p.withCopy source constants).LocalTo source w → p.LocalTo source w :=
    fun w => localTo_withCopy hp hlive
  rcases stands_withCopy hp (hq.mem_instrsOf.mp hi) with ⟨hin, -⟩ | ⟨-, j, hj, hcopy⟩
  · obtain ⟨b, -, hb⟩ := Option.bind_eq_some_iff.mp hin
    exact absurd (func_lt_of_mem (hp.mem_blocks.mpr hb)) (Nat.lt_irrefl _)
  rw [hcopy]
  refine ⟨fun v hv w hw => ?_, fun b hb => ?_⟩
  · obtain ⟨u, hu, rfl⟩ := List.mem_map.mp hv
    exact (image_value hp u).apart (hflat j (hp.mem_instrsOf.mpr hj) u hu) hgiven hback
      (not_localTo_image hp hlive hgiven) hw
  · obtain ⟨c, rfl⟩ := mem_phiBlocks_copied hb
    exact not_localTo_image (v := .block c) hp hlive hgiven

theorem withCopy_exactCopy :
    p.ExactCopy source constants (p.withCopy source constants) ⟨p.functions.size⟩
      (p.copyRenaming source constants).block (p.copyRenaming source constants).instrId := by
  have hfunc : (p.withCopy source constants).func ⟨p.functions.size⟩ =
      p.copyFunc source constants := by rw [func_withCopy, if_pos rfl]
  have hblock : ∀ b ∈ (p.func source).blocks, (p.withCopy source constants).block
      ((p.copyRenaming source constants).block b) = p.copyBlock source constants b :=
    fun b hb => block_withCopy_new hp source constants hb
  have hinstr : ∀ i ∈ p.instrsOf source, (p.withCopy source constants).instr
      ((p.copyRenaming source constants).instrId i) =
        (p.copyRenaming source constants).instr (p.instr i) :=
    fun i hi => instr_withCopy_new hp source constants hi
  refine
    { handle := rfl
      name := by rw [hfunc]; exact freshFunctionName_free p _
      live := by rw [hfunc]; exact hlive
      head := by rw [hfunc]; exact ⟨rfl, rfl, rfl, rfl, rfl⟩
      params := by rw [hfunc]; exact params_kept constants _
      blocks := by rw [hfunc]; rfl
      instrs := fun b hb => by rw [hblock b hb, copyBlock_instrs]
      block := fun b hb => by rw [hblock b hb]; exact ⟨rfl, rfl, rfl⟩
      instr := fun i hi => ?_
      kind := fun i hi => by rw [hinstr i hi]; exact image_kind hp _
      operands := fun i hi => ?_
      newBlocks := fun b hb => ⟨Renaming.le_block (r := p.copyRenaming source constants)
        (hp.nodup_blocks source) hb, fun c hc => Renaming.block_inj
          (r := p.copyRenaming source constants) (hp.nodup_blocks source) hb hc⟩
      newInstrs := fun i hi => ⟨Renaming.le_instrId (r := p.copyRenaming source constants)
        (hp.nodup_instrsOf source) hi, fun j hj => Renaming.instrId_inj
          (r := p.copyRenaming source constants) (hp.nodup_instrsOf source) hi hj⟩
      apart := fun i hi => withCopy_apart hp hlive hflat hgiven hi
      functions := by rw [hfunc]; rfl
      oldBlocks := fun b hb => block_withCopy_old hb
      oldInstrs := fun i hi => instr_withCopy_old hi
      sizes := by simp [withCopy]
      rest := rfl }
  · rw [hinstr i hi]
    exact ⟨rfl, rfl, hp.live_of_functionOf (hp.mem_instrsOf.mp hi), rfl⟩
  · rw [hinstr i hi, Renaming.instr, List.forall₂_map_right_iff, List.forall₂_same]
    exact fun v _ => image_value hp v

end

/-- A copy is made if the function lives and the positions are among its parameters, and else the
    edit is refused and changes nothing. It is exact as far as the arguments of its source are among
    the parameters (`LocalTo`). -/
theorem specialise_exactCopy (hp : p.Sound)
    (hflat : ∀ i ∈ p.instrsOf source, ∀ v ∈ (p.instr i).operands, v.Flat)
    (hgiven : ∀ c ∈ constants, ∀ w, p.LocalTo source w → ¬ w.Occurs c.2) :
    ((p.func source).erased = true ∨ (∃ c ∈ constants, (p.func source).params.length ≤ c.1) →
      ∃ e, Edit.tryMake (·.specialise source constants) p = .error e p ∧
        p.Refused source constants e) ∧
    ((p.func source).erased = false → (∀ c ∈ constants, c.1 < (p.func source).params.length) →
      ∃ copy q β ι, Edit.tryMake (·.specialise source constants) p = .ok copy q ∧ q.Sound ∧
        p.ExactCopy source constants q copy β ι) := by
  constructor
  · intro h
    obtain ⟨e, herror, hrefused⟩ := specialise_refused h
    refine ⟨e, ?_, hrefused⟩
    unfold Edit.tryMake
    dsimp only
    rw [herror]
  · intro hlive hplaces
    have hok := specialise_ok.mpr ⟨hlive, hplaces, rfl, rfl⟩
    refine ⟨_, _, _, _, ?_, (evolves_withCopy p source constants hp).1,
      withCopy_exactCopy hp hlive hflat hgiven⟩
    unfold Edit.tryMake
    dsimp only
    rw [hok]

/-- A function that counts in steps of its first argument up to its second one, in a loop whose phi
    refers to what comes later. -/
def counting : Program where
  name := "counting"
  functions := #[⟨"count", .int 64, [⟨some "step", .int 64⟩, ⟨some "limit", .int 64⟩], false, none,
    none, [.keyword "nounwind"], [⟨0⟩, ⟨1⟩, ⟨2⟩], false⟩]
  blocks := #[
    ⟨some "entry", some ⟨0⟩, [⟨0⟩], false⟩,
    ⟨some "loop", some ⟨0⟩, [⟨1⟩, ⟨2⟩, ⟨3⟩, ⟨4⟩], false⟩,
    ⟨some "done", some ⟨0⟩, [⟨5⟩], false⟩]
  instrs := #[
    ⟨.br, .void, [.block ⟨1⟩], none, some ⟨0⟩, false⟩,
    ⟨.phi [⟨0⟩, ⟨1⟩], .int 64, [.int 64 0, .instr ⟨2⟩], some "n", some ⟨1⟩, false⟩,
    ⟨.binary .add, .int 64, [.instr ⟨1⟩, .arg ⟨0⟩ 0], some "next", some ⟨1⟩, false⟩,
    ⟨.icmp .eq, .int 1, [.instr ⟨2⟩, .arg ⟨0⟩ 1], some "full", some ⟨1⟩, false⟩,
    ⟨.br, .void, [.instr ⟨3⟩, .block ⟨1⟩, .block ⟨2⟩], none, some ⟨1⟩, false⟩,
    ⟨.ret, .void, [.instr ⟨2⟩], none, some ⟨2⟩, false⟩]

theorem specialise_exactCopy_counting : ∃ copy q β ι,
    Edit.tryMake (·.specialise ⟨0⟩ [(0, .int 64 5)]) counting = .ok copy q ∧ q.Sound ∧
      counting.ExactCopy ⟨0⟩ [(0, .int 64 5)] q copy β ι ∧ (q.func copy).name = "count.1" ∧
      (q.instr ⟨8⟩).operands = [.instr ⟨7⟩, .int 64 5] ∧
      (q.instr ⟨9⟩).operands = [.instr ⟨8⟩, .arg ⟨1⟩ 0] := by
  have hflat : ∀ i ∈ counting.instrsOf ⟨0⟩, ∀ v ∈ (counting.instr i).operands, v.Flat := by
    intro i hi v hv
    have hcases : v.isLocal = true ∨ v = .int 64 0 := by
      revert i v
      decide +kernel
    rcases hcases with h | rfl
    · exact Value.flat_of_isLocal h
    · exact Value.flat_int 64 0
  have hgiven : ∀ c ∈ [(0, Value.int 64 5)], ∀ w, counting.LocalTo ⟨0⟩ w → ¬ w.Occurs c.2 := by
    intro c hc w hw hoccurs
    rw [List.mem_singleton.mp hc] at hoccurs
    obtain rfl := Value.flat_int 64 5 w hw.isLocal hoccurs.mentions
    exact hw
  obtain ⟨copy, q, β, ι, hrun, hsound, hcopy⟩ :=
    (specialise_exactCopy (by decide +kernel) hflat hgiven).2 (by decide) (by decide)
  obtain ⟨copy', q', hsame, hafter⟩ := exists_answer
    (r := Edit.tryMake (·.specialise ⟨0⟩ [(0, .int 64 5)]) counting)
    (P := fun copy q => (q.func copy).name = "count.1" ∧
      (q.instr ⟨8⟩).operands = [.instr ⟨7⟩, .int 64 5] ∧
      (q.instr ⟨9⟩).operands = [.instr ⟨8⟩, .arg ⟨1⟩ 0]) (by decide +kernel)
  rw [hrun] at hsame
  cases hsame
  exact ⟨copy, q, β, ι, hrun, hsound, hcopy, hafter⟩

/-- A function without parameters that refers to an argument of its own. -/
def overreaching : Program where
  name := "overreaching"
  functions := #[⟨"F", .int 64, [], false, none, none, [], [⟨0⟩], false⟩]
  blocks := #[⟨some "entry", some ⟨0⟩, [⟨0⟩, ⟨1⟩], false⟩]
  instrs := #[
    ⟨.binary .add, .int 64, [.arg ⟨0⟩ 5, .int 64 2], some "x", some ⟨0⟩, false⟩,
    ⟨.ret, .void, [.instr ⟨0⟩], none, some ⟨0⟩, false⟩]

/-- An argument beyond the parameters is no part of what is copied: the copy refers to the argument
    of its source, and it is not verified. -/
theorem copy_keeps_argument : overreaching.Sound ∧ overreaching.verify = .ok () ∧
    ∃ copy q, Edit.tryMake (·.specialise ⟨0⟩ []) overreaching = .ok copy q ∧
      q.functionOf? ⟨2⟩ = some copy ∧ (q.instr ⟨2⟩).operands = [.arg ⟨0⟩ 5, .int 64 2] ∧
      q.problems = ["@F.1: %x uses an argument of another function"] :=
  ⟨by decide +kernel, by rfl, exists_answer (by decide +kernel)⟩

end Program

end QirProfile
