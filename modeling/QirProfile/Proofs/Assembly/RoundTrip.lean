import QirProfile.Proofs.Assembly.Rereading

/-!
# Programs that are read, printed and read again

`ComesBack m` says that the text of a program is read as the same program up to local names, and that
this program has the same text again. That asks for what a text can carry (`Portable`), and for
instructions whose text keeps their type (`KeepsType`). Two kinds of instructions do not keep it:

* the address of a field whose index has one bit: the index is written as a truth value, and a truth
  value selects no field when an instruction is read;
* a call whose result is a function: its result type is read as the whole type of the callee.
-/

namespace QirProfile.Assembly

/-! ## 1. What comes back -/

/-- The text of the program is read as the same program under other local names, and that program has
    the same text. -/
def ComesBack (m : Program) : Prop :=
  ∃ m₂, read (print m) = .ok m₂ ∧ (∃ name, m₂ = m.relabel name) ∧ print m₂ = print m

/-- **Every program that was read comes back**, if a text can carry it and each instruction keeps
    its type. -/
theorem comesBack_of_read {source : String} {tree : ProgramTree} {m : Program}
    (htree : readTree source = .ok tree) (hread : read source = .ok m) (h : Portable tree m)
    (hkeeps : ∀ i ∈ m.instrs.toList, KeepsType m i) : ComesBack m := by
  have hresolve : tree.resolve = .ok m := by
    rw [read, htree] at hread
    exact hread
  have hw := writable_of_read htree hresolve h hkeeps
  exact ⟨relabelled m, read_print hw, ⟨_, rfl⟩, hw.print_relabelled⟩

/-! ## 2. Programs of one text -/

/-- The text is read as this program, and its functions write these types for their operands. -/
def ReadsAs (source : String) (m : Program) (written : List (List (List Ty))) : Prop :=
  (read source).toOption = some m ∧
    (readTree source).toOption.map (fun tree => tree.functions.map FuncTree.writtenTys) =
      some written

instance (source : String) (m : Program) (written : List (List (List Ty))) :
    Decidable (ReadsAs source m written) :=
  inferInstanceAs (Decidable (_ ∧ _))

theorem ReadsAs.portable {source : String} {m : Program} {written : List (List (List Ty))}
    (h : ReadsAs source m written) (hverified : m.verify.toOption = some ())
    (htyped : IsTyped written m) (hplain : PlainNames m ∧ PlainTexts m) (hbounded : Bounded m) :
    ∃ tree, readTree source = .ok tree ∧ read source = .ok m ∧ Portable tree m := by
  obtain ⟨tree, htree, rfl⟩ := Option.map_eq_some_iff.mp h.2
  exact ⟨tree, ok_of_toOption htree, ok_of_toOption h.1,
    ok_of_toOption hverified, htyped, hplain.1, hplain.2, hbounded⟩

/-- A pair of numbers. -/
def pairTy : Ty := .struct [.int 32, .int 64]

/-- A function that hands on the first number of a pair. -/
def firstText : String :=
  "declare void @show(i32)\n\n" ++
  "define i32 @first(\x7b i32, i64 \x7d* %0) #0 \x7b\n" ++
  "  %2 = getelementptr \x7b i32, i64 \x7d, \x7b i32, i64 \x7d* %0, i32 0, i32 0\n" ++
  "  %3 = load i32, i32* %2\n" ++
  "  call void @show(i32 %3)\n" ++
  "  ret i32 %3\n" ++
  "\x7d\n\n" ++
  "attributes #0 = \x7b nounwind \x7d\n"

/-- The program of `firstText`. -/
def firstProgram : Program where
  name := "module"
  functions := #[
    { name := "show", ret := .void, params := [⟨none, .int 32⟩], varArg := false },
    { name := "first", ret := .int 32, params := [⟨none, .ptr pairTy⟩], varArg := false
      attributes := [.keyword "nounwind"], blocks := [⟨0⟩] }]
  blocks := #[{ name := none, parent := some ⟨1⟩, instrs := [⟨0⟩, ⟨1⟩, ⟨2⟩, ⟨3⟩] }]
  instrs := #[
    { kind := .gep pairTy false, ty := .ptr (.int 32)
      operands := [.arg ⟨1⟩ 0, .int 32 0, .int 32 0], parent := some ⟨0⟩ },
    { kind := .load none, ty := .int 32, operands := [.instr ⟨0⟩], parent := some ⟨0⟩ },
    { kind := .call .none, ty := .void, operands := [.instr ⟨1⟩, .func ⟨0⟩], parent := some ⟨0⟩ },
    { kind := .ret, ty := .void, operands := [.instr ⟨1⟩], parent := some ⟨0⟩ }]

theorem first_comesBack : ∃ tree, readTree firstText = .ok tree ∧
    read firstText = .ok firstProgram ∧ Portable tree firstProgram ∧
    (∀ i ∈ firstProgram.instrs.toList, KeepsType firstProgram i) ∧ ComesBack firstProgram := by
  have hreads : ReadsAs firstText firstProgram
      [[], [[.ptr pairTy, .int 32, .int 32], [.ptr (.int 32)], [.int 32], [.int 32]]] := by
    decide +kernel
  have htyped : IsTyped [[], [[.ptr pairTy, .int 32, .int 32], [.ptr (.int 32)], [.int 32],
      [.int 32]]] firstProgram := by
    rintro (_ | _ | k) tys hk
    · cases hk
      exact .nil
    · cases hk
      refine .cons ⟨by decide, by decide, ?_⟩ (.cons ⟨by decide, by decide, ?_⟩
        (.cons ⟨by decide, by decide, ?_⟩ (.cons ⟨by decide, by decide, ?_⟩ .nil))) <;>
        simp [firstProgram, Program.instr, Value.mentions]
    · cases hk
  have hbounded : Bounded firstProgram := by
    refine ⟨by decide, by decide +kernel, ?_, ?_⟩ <;>
      simp [firstProgram, ShortBytes, Value.mentions]
  obtain ⟨tree, htree, hread, h⟩ :=
    hreads.portable (by decide +kernel) htyped (by decide +kernel) hbounded
  have hkeeps : ∀ i ∈ firstProgram.instrs.toList, KeepsType firstProgram i := by
    intro i hi
    simp only [firstProgram, List.mem_cons, List.not_mem_nil, or_false] at hi
    obtain rfl | rfl | rfl | rfl := hi
    · refine ⟨fun _ => .inl rfl, fun source inbounds hkind => ?_⟩
      cases hkind
      decide
    · exact ⟨fun _ => .inl rfl, fun _ _ hkind => by cases hkind⟩
    · exact ⟨fun _ => .inl rfl, fun _ _ hkind => by cases hkind⟩
    · exact ⟨fun _ => .inl rfl, fun _ _ hkind => by cases hkind⟩
  exact ⟨tree, htree, hread, h, hkeeps, comesBack_of_read htree hread h hkeeps⟩

/-! ## 3. Types that are lost -/

/-- The address of the first number of a pair, with an index of one bit. -/
def bitText : String :=
  "define i32 @f(\x7b i32, i64 \x7d* %p) \x7b\n" ++
  "entry:\n" ++
  "  %q = getelementptr \x7b i32, i64 \x7d, \x7b i32, i64 \x7d* %p, i32 0, i1 0\n" ++
  "  %v = load i32, i32* %q\n" ++
  "  ret i32 %v\n" ++
  "\x7d\n"

/-- The program of `bitText`. -/
def bitProgram : Program where
  name := "module"
  functions := #[
    { name := "f", ret := .int 32, params := [⟨some "p", .ptr pairTy⟩], varArg := false
      blocks := [⟨0⟩] }]
  blocks := #[{ name := some "entry", parent := some ⟨0⟩, instrs := [⟨0⟩, ⟨1⟩, ⟨2⟩] }]
  instrs := #[
    { kind := .gep pairTy false, ty := .ptr (.int 32)
      operands := [.arg ⟨0⟩ 0, .int 32 0, .int 1 0], name := some "q", parent := some ⟨0⟩ },
    { kind := .load none, ty := .int 32, operands := [.instr ⟨0⟩], name := some "v"
      parent := some ⟨0⟩ },
    { kind := .ret, ty := .void, operands := [.instr ⟨1⟩], parent := some ⟨0⟩ }]

/-- A call whose result is a function. -/
def resultText : String :=
  "declare void () @f()\n\n" ++
  "define void @g() \x7b\n" ++
  "entry:\n" ++
  "  %h = call void () () @f()\n" ++
  "  ret void\n" ++
  "\x7d\n"

/-- The program of `resultText`. -/
def resultProgram : Program where
  name := "module"
  functions := #[
    { name := "f", ret := .func .void [] false, params := [], varArg := false },
    { name := "g", ret := .void, params := [], varArg := false, blocks := [⟨0⟩] }]
  blocks := #[{ name := some "entry", parent := some ⟨1⟩, instrs := [⟨0⟩, ⟨1⟩] }]
  instrs := #[
    { kind := .call .none, ty := .func .void [] false, operands := [.func ⟨0⟩], name := some "h"
      parent := some ⟨0⟩ },
    { kind := .ret, ty := .void, operands := [], parent := some ⟨0⟩ }]

theorem not_comesBack {m : Program} (h : (read (print m)).toOption.map print ≠ some (print m)) :
    ¬ ComesBack m := by
  rintro ⟨m₂, hread, -, hprint⟩
  apply h
  rw [hread]
  exact congrArg some hprint

/-- A field index of one bit and a call that results in a function: either program is read, verified
    and well typed, and does not come back. -/
theorem types_lost :
    (∃ tree, readTree bitText = .ok tree ∧ read bitText = .ok bitProgram ∧
      Portable tree bitProgram ∧ ¬ ComesBack bitProgram) ∧
    ∃ tree, readTree resultText = .ok tree ∧ read resultText = .ok resultProgram ∧
      Portable tree resultProgram ∧ ¬ ComesBack resultProgram := by
  constructor
  · have hreads : ReadsAs bitText bitProgram
        [[[.ptr pairTy, .int 32, .int 1], [.ptr (.int 32)], [.int 32]]] := by
      decide +kernel
    have htyped : IsTyped [[[.ptr pairTy, .int 32, .int 1], [.ptr (.int 32)], [.int 32]]]
        bitProgram := by
      rintro (_ | k) tys hk
      · cases hk
        refine .cons ⟨by decide, by decide, ?_⟩ (.cons ⟨by decide, by decide, ?_⟩
          (.cons ⟨by decide, by decide, ?_⟩ .nil)) <;>
          simp [bitProgram, Program.instr, Value.mentions]
      · cases hk
    have hbounded : Bounded bitProgram := by
      refine ⟨by decide, by decide +kernel, ?_, ?_⟩ <;>
        simp [bitProgram, ShortBytes, Value.mentions]
    obtain ⟨tree, htree, hread, h⟩ :=
      hreads.portable (by decide +kernel) htyped (by decide +kernel) hbounded
    exact ⟨tree, htree, hread, h, not_comesBack (by decide +kernel)⟩
  · have hreads : ReadsAs resultText resultProgram [[], [[], []]] := by
      decide +kernel
    have htyped : IsTyped [[], [[], []]] resultProgram := by
      rintro (_ | _ | k) tys hk
      · cases hk
        exact .nil
      · cases hk
        refine .cons ⟨by decide, by decide, ?_⟩ (.cons ⟨by decide, by decide, ?_⟩ .nil) <;>
          simp [resultProgram, Program.instr, Value.mentions]
      · cases hk
    have hbounded : Bounded resultProgram := by
      refine ⟨by decide, by decide +kernel, ?_, ?_⟩ <;>
        simp [resultProgram, ShortBytes, Value.mentions]
    obtain ⟨tree, htree, hread, h⟩ :=
      hreads.portable (by decide +kernel) htyped (by decide +kernel) hbounded
    exact ⟨tree, htree, hread, h, not_comesBack (by decide +kernel)⟩

end QirProfile.Assembly
