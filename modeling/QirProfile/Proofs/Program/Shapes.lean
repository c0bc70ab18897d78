import QirProfile.Proofs.Program.References

/-!
# Problems of shape

A problem that `problems` reports is one of shape, where a block does not end as it should or has a
phi out of place, or one of reference, where something refers to a node that may not be used.
-/

namespace QirProfile.Program

/-- What can be wrong with the shape of a block, with the text that reports it. -/
inductive ShapeProblem (p : Program) (f : FuncId) (b : BlockId) : String → Prop
  | empty (hempty : (p.block b).instrs = []) : ShapeProblem p f b
    ("@" ++ (p.func f).name ++ ": block " ++ p.label (.block b) ++ " is empty")
  | unended {last : InstrId} (hlast : (p.block b).terminator? = some last)
    (hother : (p.instr last).isTerminator = false) : ShapeProblem p f b
    ("@" ++ (p.func f).name ++ ": block " ++ p.label (.block b) ++
      " does not end with a terminator")
  | early {id : InstrId} (hid : id ∈ (p.block b).instrs)
    (hterminator : (p.instr id).isTerminator = true)
    (hlast : (p.block b).terminator? ≠ some id) : ShapeProblem p f b
    ("@" ++ (p.func f).name ++ ": " ++ p.label (.instr id) ++
      " is a terminator in the middle of block " ++ p.label (.block b))
  | latePhi {before after : List InstrId} {id other : InstrId}
    (hid : (p.block b).instrs = before ++ id :: after) (hphi : (p.instr id).isPhi = true)
    (hother : other ∈ before) (hnone : (p.instr other).isPhi = false) : ShapeProblem p f b
    ("@" ++ (p.func f).name ++ ": " ++ p.label (.instr id) ++
      " is not grouped at the top of block " ++ p.label (.block b))

/-- What an instruction in a block refers to may be used there: it knows its block, a phi has a block
    of the function for every value, and every operand is accepted. -/
structure RefersWell (p : Program) (f : FuncId) (b : BlockId) (id : InstrId) : Prop where
  parent : (p.instr id).parent = some b
  incoming : ∀ blocks, (p.instr id).kind = .phi blocks →
    blocks.length = (p.instr id).operands.length ∧
      ∀ c ∈ blocks, (p.block c).erased = false ∧ (p.block c).parent = some f
  operands : ∀ v ∈ (p.instr id).operands, p.operandProblem? f v = none

variable {p : Program} {f : FuncId} {b : BlockId} {text : String}

theorem phiProblems_shape {i : Instr} {what label : String} {seenOther : Bool}
    {incoming : List BlockId} (hcount : incoming.length = i.operands.length)
    (hblocks : ∀ c ∈ incoming, (p.block c).erased = false ∧ (p.block c).parent = some f)
    (h : text ∈ p.phiProblems f i what label seenOther incoming) :
    seenOther = true ∧ text = what ++ " is not grouped at the top of block " ++ label := by
  have hforeign : (incoming.filterMap fun c =>
      if (p.block c).erased ∨ (p.block c).parent ≠ some f then
        some (what ++ " refers to a block outside the function") else none) = [] := by
    rw [List.filterMap_eq_nil_iff]
    intro c hc
    simp [hblocks c hc]
  unfold phiProblems at h
  rw [hforeign, if_neg (not_not_intro hcount)] at h
  cases seenOther with
  | false => cases h
  | true => exact ⟨rfl, by simpa using h⟩

theorem instrProblems_shape {label : String} {last id : InstrId} {seenOther : Bool}
    (hrefers : p.RefersWell f b id)
    (h : text ∈ p.instrProblems f b label last seenOther id) :
    ((p.instr id).isTerminator = true ∧ id ≠ last ∧ text = "@" ++ (p.func f).name ++ ": " ++
        p.label (.instr id) ++ " is a terminator in the middle of block " ++ label) ∨
      ((p.instr id).isPhi = true ∧ seenOther = true ∧ text = "@" ++ (p.func f).name ++ ": " ++
        p.label (.instr id) ++ " is not grouped at the top of block " ++ label) := by
  have hoperands : ((p.instr id).operands.filterMap fun v =>
      (p.operandProblem? f v).map fun text =>
        "@" ++ (p.func f).name ++ ": " ++ p.label (.instr id) ++ " " ++ text) = [] := by
    rw [List.filterMap_eq_nil_iff]
    intro v hv
    rw [hrefers.operands v hv]
    rfl
  simp only [instrProblems, hoperands, hrefers.parent, ne_eq, not_true_eq_false, if_false,
    List.nil_append, List.append_nil, List.mem_append] at h
  rcases h with h | h
  · split at h
    · rename_i hearly
      exact .inl ⟨hearly.1, hearly.2, by simpa using h⟩
    · cases h
  · cases hkind : (p.instr id).kind with
    | phi incoming =>
      rw [hkind] at h
      obtain ⟨hcount, hblocks⟩ := hrefers.incoming incoming hkind
      obtain ⟨hseen, htext⟩ := phiProblems_shape hcount hblocks h
      exact .inr ⟨Instr.isPhi_iff.mpr ⟨incoming, hkind⟩, hseen, htext⟩
    | _ =>
      rw [hkind] at h
      cases h

theorem bodyProblems_shape {last : InstrId} (hlast : (p.block b).terminator? = some last)
    {ids : List InstrId} : ∀ (before : List InstrId) (seenOther : Bool),
      (p.block b).instrs = before ++ ids →
      (seenOther = true → ∃ other ∈ before, (p.instr other).isPhi = false) →
      (∀ id ∈ ids, p.RefersWell f b id) →
      text ∈ p.bodyProblems f b (p.label (.block b)) last seenOther ids →
      ShapeProblem p f b text := by
  induction ids with
  | nil =>
    intro before seenOther _ _ _ h
    cases h
  | cons id rest ih =>
    intro before seenOther hinstrs hseen hrefers h
    have hnext : (seenOther || !(p.instr id).isPhi) = true →
        ∃ other ∈ before ++ [id], (p.instr other).isPhi = false := by
      intro hor
      rcases Bool.or_eq_true_iff.mp hor with hbefore | hid
      · obtain ⟨other, hother, hnone⟩ := hseen hbefore
        exact ⟨other, List.mem_append_left _ hother, hnone⟩
      · exact ⟨id, by simp, by simpa using hid⟩
    rcases List.mem_append.mp h with h | h
    · rcases instrProblems_shape (hrefers id List.mem_cons_self) h with
        ⟨hterminator, hne, rfl⟩ | ⟨hphi, hother, rfl⟩
      · refine .early (by simp [hinstrs]) hterminator ?_
        rw [hlast]
        exact fun heq => hne (Option.some.inj heq).symm
      · obtain ⟨other, hother, hnone⟩ := hseen hother
        exact .latePhi hinstrs hphi hother hnone
    · exact ih (before ++ [id]) _ (by simp [hinstrs]) hnext (fun i hi => hrefers i (List.mem_cons_of_mem id hi)) h

theorem blockProblems_shape (hrefers : ∀ id ∈ (p.block b).instrs, p.RefersWell f b id)
    (h : text ∈ p.blockProblems f b) : ShapeProblem p f b text := by
  unfold blockProblems at h
  cases hlast : (p.block b).terminator? with
  | none =>
    rw [hlast] at h
    obtain rfl := List.mem_singleton.mp h
    exact .empty (List.getLast?_eq_none_iff.mp hlast)
  | some last =>
    rw [hlast] at h
    rcases List.mem_append.mp h with h | h
    · split at h
      · cases h
      · rename_i hother
        obtain rfl := List.mem_singleton.mp h
        exact .unended hlast (by simpa using hother)
    · exact bodyProblems_shape hlast [] false rfl (fun hseen => by cases hseen) hrefers h

/-- Where all references are in order, only problems of shape are reported. -/
theorem problems_shape (hrefers : ∀ f, (p.func f).erased = false → ∀ b ∈ (p.func f).blocks,
    ∀ id ∈ (p.block b).instrs, p.RefersWell f b id) (h : text ∈ p.problems) :
    ∃ f b, (p.func f).erased = false ∧ b ∈ (p.func f).blocks ∧ ShapeProblem p f b text := by
  obtain ⟨f, hf, h⟩ := List.mem_flatMap.mp h
  obtain ⟨b, hb, h⟩ := List.mem_flatMap.mp h
  have hlive := mem_liveFunctions.mp hf
  exact ⟨f, b, hlive, hb, blockProblems_shape (hrefers f hlive b hb) h⟩

end QirProfile.Program
