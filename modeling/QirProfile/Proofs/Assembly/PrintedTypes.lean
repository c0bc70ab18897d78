import QirProfile.Proofs.Assembly.Reading
import QirProfile.Proofs.Assembly.Proceeding

/-!
# Where a printed type ends

The suffixes of a type are read as long as there are any, so a type never stops in front of tokens
that go on with it. In front of all others a printed type is read back, and nothing behind it is
touched.
-/

namespace QirProfile.Assembly

namespace Reader

/-! ## 1. Where a type stops -/

theorem accept_missed {t : Token} {c c' : Cursor} (h : accept t c = .ok (false, c')) :
    nextToken c.rest ≠ some t ∧ c' = c := by
  rw [accept, bind_run (at?_run t c)] at h
  by_cases hhead : nextToken c.rest = some t
  · rw [beq_iff_eq.mpr hhead] at h
    obtain ⟨_, _, -, h⟩ := bind_ok.mp h
    cases h
  · rw [beq_false_of_ne hhead] at h
    cases h
    exact ⟨hhead, rfl⟩

theorem endsType_of_suffixes {ty : Reader Ty} {head t : Ty} {c c' : Cursor}
    (h : typeSuffixes ty head c = .ok (t, c')) : EndsType c'.tokens := by
  obtain ⟨t₁, c₁, -, h⟩ := walks_of_repeatFuel h
  obtain ⟨star, c₂, hstar, h⟩ := bind_ok.mp h
  cases star with
  | true => cases h
  | false =>
    obtain ⟨space, c₃, hspace, h⟩ := bind_ok.mp h
    cases space with
    | true =>
      obtain ⟨_, _, -, h⟩ := bind_ok.mp h
      cases h
    | false =>
      obtain ⟨params, c₄, hparams, h⟩ := bind_ok.mp h
      cases params with
      | true =>
        obtain ⟨_, _, -, h⟩ := bind_ok.mp h
        cases h
      | false =>
        cases h
        obtain ⟨hstar, rfl⟩ := accept_missed hstar
        obtain ⟨hspace, rfl⟩ := accept_missed hspace
        obtain ⟨hparams, rfl⟩ := accept_missed hparams
        intro x hx
        rw [Cursor.tokens, List.head?_map] at hx
        by_contra hcont
        cases x with
        | star => exact hstar hx
        | leftParen => exact hparams hx
        | keyword word =>
          rw [Bool.not_eq_false] at hcont
          rw [beq_iff_eq.mp hcont] at hx
          exact hspace hx
        | _ => exact hcont rfl

theorem endsType_of_type {t : Ty} {c c' : Cursor} (h : type c = .ok (t, c')) :
    EndsType c'.tokens := by
  obtain ⟨head, c₁, -, h⟩ := bind_ok.mp (show typeWithin (c.rest.length + 1) c = _ from h)
  exact endsType_of_suffixes h

end Reader

/-! ## 2. Printed types -/

/-- A printed type is read back in front of just those tokens that do not go on with it. -/
theorem Ty.text_reads_iff {t : Ty} (hfits : t.Fits) :
    ∃ xs, tokens t.text = .ok xs ∧ ∀ ys line,
      (∃ line', Reader.type ⟨xs ++ ys, line⟩ = .ok (t, ⟨ys, line'⟩)) ↔
        EndsType (ys.map (·.token)) := by
  obtain ⟨xs, hxs, htokens⟩ := t.spells hfits [] [] trivial lexes_nil _ 1 (Nat.le_refl _)
  simp only [List.append_nil] at hxs htokens
  refine ⟨xs, hxs, fun ys line => ⟨fun ⟨line', h⟩ => Reader.endsType_of_type h, fun hends => ?_⟩⟩
  have hcursor : (Cursor.mk (xs ++ ys) line).tokens = t.tokens ++ ys.map (·.token) := by
    rw [Cursor.tokens, List.map_append, htokens]
  obtain ⟨⟨zs, line'⟩, hrun, hzs⟩ := (takes_type hfits hends).run _ hcursor
  refine ⟨line', ?_⟩
  -- What is left has the tokens of `ys` and is an end of the text, so it is `ys` with its lines.
  obtain ⟨hsuffix, -⟩ := Reader.consumes_type.run (Nat.lt_succ_self (xs ++ ys).length) hrun
  have hlength : zs.length = ys.length := by
    simpa only [Cursor.tokens, List.length_map] using congrArg List.length hzs
  obtain rfl : zs = ys :=
    (List.suffix_of_suffix_length_le hsuffix (List.suffix_append xs ys) hlength.le).eq_of_length
      hlength
  exact hrun

/-- A pointer to a function with more parameters, whose result has a name with quotes in it. -/
def callbackTy : Ty :=
  .ptr (.func (.array 3 (.named "a \"b\"")) [.struct [.int 1, .ptr .double], .label] true)

theorem callbackTy_reads : callbackTy.Fits ∧
    ∃ xs, tokens "[3 x %\"a \\22b\\22\"] (\x7b i1, double* \x7d, label, ...)*" = .ok xs ∧
      ∃ line', Reader.type ⟨xs ++ [⟨.comma, 4⟩], 1⟩ = .ok (callbackTy, ⟨[⟨.comma, 4⟩], line'⟩) := by
  have hfits : callbackTy.Fits := by simp [callbackTy, Ty.Fits, Ty.AllFit, span]
  obtain ⟨xs, hxs, hreads⟩ := Ty.text_reads_iff hfits
  exact ⟨hfits, xs, hxs, (hreads _ 1).mpr (endsType_cons rfl)⟩

end QirProfile.Assembly
