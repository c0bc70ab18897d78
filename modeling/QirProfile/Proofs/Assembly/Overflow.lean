import QirProfile.Proofs.Assembly.ProceedingUnits
import QirProfile.Proofs.Assembly.Refusing
import QirProfile.Proofs.Fold.WideWords

/-!
# Where reading overflows

Reading counts: lines and tokens, the depth of brackets, and the numbers of parameters and entry
blocks. All counts but the last are bounded by the length of the text, and numbers that are written
are checked against their type. The number behind a parameter is not: behind the greatest number of
32 bits there is none.
-/

namespace QirProfile.Assembly

/-! ## 1. Counters -/

theorem depthAfter_le (depth : Nat) (t : Token) : Reader.depthAfter depth t ≤ depth + 1 := by
  unfold Reader.depthAfter
  split <;> omega

theorem foldl_depthAfter_le (ts : List Token) (depth : Nat) :
    ts.foldl Reader.depthAfter depth ≤ depth + ts.length := by
  induction ts generalizing depth with
  | nil => exact Nat.le_refl _
  | cons t ts ih =>
    have hstep := depthAfter_le depth t
    have hrest := ih (Reader.depthAfter depth t)
    rw [List.foldl_cons, List.length_cons]
    omega

theorem foldl_nextSlot_lt {symbols : List Symbol} : ∀ {slot : Nat}, slot < span 32 →
    (∀ s ∈ symbols, s.hasNext = true) → symbols.foldl nextSlot slot < span 32 := by
  induction symbols with
  | nil => exact fun hslot _ => hslot
  | cons s symbols ih =>
    intro slot hslot h
    rw [List.forall_mem_cons] at h
    refine ih ?_ h.2
    cases s with
    | named name => exact hslot
    | numbered n => exact of_decide_eq_true h.1

theorem FuncTree.entrySlot_lt {t : FuncTree} (h : t.KeepsSlots) : t.entrySlot < span 32 :=
  foldl_nextSlot_lt (by decide) h

theorem isSigned_payload {v w : Int} (h : payload v = .ok w) : Word.isSigned w = true := by
  unfold payload at h
  split at h
  · cases h
    exact Word.isSigned_normalize v 64
  · cases h

/-! ## 2. Refusals -/

open ReadError (IsRefusal IsUnresolved IsDeclaring)

theorem ReadError.IsUnresolved.isRefusal {e : ReadError} (h : IsUnresolved e) : IsRefusal e := by
  cases h with
  | undefined name scope => exact .undefinedSymbol name scope
  | outOfRange line n => exact .integerOutOfRange line n

theorem ReadError.IsDeclaring.isRefusal {e : ReadError} (h : IsDeclaring e) : IsRefusal e := by
  cases h with
  | duplicate name => exact .duplicateDefinition _
  | unresolved h => exact h.isRefusal

namespace ProgramTree

variable {tree : ProgramTree} {e : ReadError}

theorem refused_or_overflows (h : tree.resolve = .error e) : e = .slotOverflow ∨ e.IsRefusal := by
  rcases resolve_error_cases h with hdeclaring | ⟨k, p, t, hreaches, ht, hstep⟩
  · exact .inr hdeclaring.isRefusal
  · obtain ⟨hlt, hblocks⟩ := hreaches.next_body ht
    obtain ⟨-, ⟨-, rfl⟩ | ⟨-, key, -, rfl⟩ | ⟨-, -, hfill⟩⟩ :=
      (enterStep_error_iff hlt hblocks).mp hstep
    · exact .inl rfl
    · exact .inr (.duplicateDefinition _)
    · exact .inr (refuses_fillBody hlt hblocks e hfill).isRefusal

theorem overflows_iff : tree.resolve = .error .slotOverflow ↔ ∃ k p t, tree.Reaches k p ∧
    tree.functions[k]? = some t ∧ t.blocks ≠ [] ∧ ¬ t.KeepsSlots := by
  constructor
  · intro h
    rcases resolve_error_cases h with hdeclaring | ⟨k, p, t, hreaches, ht, hstep⟩
    · cases hdeclaring.isRefusal
    · obtain ⟨hlt, hblocks⟩ := hreaches.next_body ht
      exact ⟨k, p, t, hreaches, ht, (enterStep_overflow_iff hlt hblocks).mp hstep⟩
  · rintro ⟨k, p, t, hreaches, ht, hslots⟩
    obtain ⟨hlt, hblocks⟩ := hreaches.next_body ht
    exact hreaches.resolve_error ht ((enterStep_overflow_iff hlt hblocks).mpr hslots)

end ProgramTree

/-! ## 3. Texts -/

/-- Reading a text ends well: it is read, or refused for a reason, and no number or position on the
    way leaves its range. The one exception is the number behind a parameter. -/
structure ReadsSafely (source : String) : Prop where
  /-- Reading overflows exactly if a parameter leaves no number behind it, in the first body that is
      refused. -/
  overflow : read source = .error .slotOverflow ↔ ∃ tree k p t, readTree source = .ok tree ∧
    tree.Reaches k p ∧ tree.functions[k]? = some t ∧ t.blocks ≠ [] ∧ ¬ t.KeepsSlots
  /-- Whatever else is refused is refused for a reason: readers do not run out of steps, and no edit
      meets a node that is not there. -/
  refused : ∀ e, read source = .error e → e = .slotOverflow ∨ e.IsRefusal
  /-- There are no more tokens than characters, their numbers are in range, and they stand on lines
      of the text. -/
  lexemes : ∀ xs, tokens source = .ok xs → xs.length ≤ source.length ∧
    ∀ x ∈ xs, x.token.InRange ∧ x.line ≤ 1 + source.toList.count '\n'
  /-- The text is read to its end. -/
  whole : ∀ steps, source.length ≤ steps → tokensFuel steps 1 source.toList = tokens source
  /-- Brackets nest no more deeply than there are characters. -/
  depth : ∀ xs, tokens source = .ok xs → ∀ c : Cursor, c.rest <:+ xs →
    ∀ count, (c.tokens.take count).foldl Reader.depthAfter 0 ≤ source.length
  /-- Behind a group is a tail of what was in front of it, so that the group can be cut out. -/
  groups : ∀ xs, tokens source = .ok xs → ∀ c c' : Cursor, c.rest <:+ xs →
    Reader.skipGroup c = .ok ((), c') → c'.rest <:+ c.rest
  /-- Widths, lengths and alignments that were read have their 32 or 64 bits. -/
  sizes : ∀ tree, readTree source = .ok tree → tree.IsWritable
  /-- Integers that are resolved are signed words of 64 bits. -/
  payloads : ∀ v w, payload v = .ok w → Word.isSigned w = true
  /-- Where every parameter leaves a number behind it, the last one leaves one of 32 bits. -/
  slots : ∀ tree, readTree source = .ok tree → ∀ t ∈ tree.functions, t.KeepsSlots →
    t.entrySlot < span 32

section

variable {source : String}

theorem read_cases {e : ReadError} (h : read source = .error e) :
    readTree source = .error e ∨ ∃ tree, readTree source = .ok tree ∧ tree.resolve = .error e :=
  except_bind_error.mp h

/-- All that reading counts fits its type but the number behind the last parameter, and this is the
    only overflow. -/
theorem reads_safely (source : String) : ReadsSafely source where
  overflow := by
    constructor
    · intro h
      rcases read_cases h with h | ⟨tree, htree, h⟩
      · cases isRefusal_readTree h
      · obtain ⟨k, p, t, hslots⟩ := ProgramTree.overflows_iff.mp h
        exact ⟨tree, k, p, t, htree, hslots⟩
    · rintro ⟨tree, k, p, t, htree, hslots⟩
      exact except_bind_error.mpr (.inr ⟨tree, htree,
        ProgramTree.overflows_iff.mpr ⟨k, p, t, hslots⟩⟩)
  refused e h := by
    rcases read_cases h with h | ⟨tree, -, h⟩
    · exact .inr (isRefusal_readTree h)
    · exact ProgramTree.refused_or_overflows h
  lexemes xs h := tokens_bounded h
  whole steps h := tokensFuel_enough (by rwa [String.length_toList]) (Nat.le_refl _)
  depth xs h c hc count := by
    have hdepth := foldl_depthAfter_le (c.tokens.take count) 0
    have hlength : c.tokens.length = c.rest.length := List.length_map _
    have htake : (c.tokens.take count).length ≤ c.tokens.length := List.length_take_le' _ _
    have hsuffix := hc.length_le
    have htokens := (tokens_bounded h).1
    omega
  groups xs _ c c' _ hrun :=
    (Reader.goes_skipGroup.run (Nat.lt_succ_self c.rest.length) hrun).1
  sizes tree h := isWritable_readTree h
  payloads v w h := isSigned_payload h
  slots tree _ t _ h := FuncTree.entrySlot_lt h

end

/-- A parameter has the greatest number of 32 bits. -/
def lastText : String :=
  "define void @f(i64 %4294967295) \x7b\n" ++
  "entry:\n" ++
  "  ret void\n" ++
  "\x7d\n"

/-- A parameter with the greatest number: reading overflows. -/
theorem read_lastText : read lastText = .error .slotOverflow ∧
    ¬ ReadError.IsRefusal .slotOverflow :=
  ⟨by decide +kernel, nofun⟩

end QirProfile.Assembly
