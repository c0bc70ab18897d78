import Mathlib.Data.List.Forall2
import QirProfile.Pattern

/-!
# A match records all of its names or none

A match writes into one table on its way down the pattern, and a node that fails after some of its
children have matched takes back what they wrote. Whether it restores the table is a matter of the
journal: names can repeat within the pattern, and can stand for something before the match.
-/

namespace QirProfile

/-! ## 1. Tables -/

namespace Captures

variable {c d e : Captures} {name other : String} {v : Value}

theorem lookup_filter_of_ne (c : Captures) (h : other ≠ name) :
    (c.filter (·.1 != name)).lookup other = c.lookup other := by
  induction c with
  | nil => rfl
  | cons entry c ih =>
    obtain ⟨label, w⟩ := entry
    by_cases hlabel : label = name
    · rw [List.filter_cons_of_neg (by simpa using hlabel), List.lookup_cons, hlabel,
        beq_eq_false_iff_ne.mpr h]
      exact ih
    · rw [List.filter_cons_of_pos (by simpa using hlabel), List.lookup_cons, List.lookup_cons]
      cases other == label with
      | true => rfl
      | false => exact ih

theorem lookup_insert (c : Captures) (name other : String) (v : Value) :
    (c.insert name v).lookup other = if other = name then some v else c.lookup other := by
  unfold insert
  split
  · rename_i heq
    rw [heq, List.lookup_cons_self]
  · rename_i hne
    rw [List.lookup_cons, beq_eq_false_iff_ne.mpr hne]
    exact lookup_filter_of_ne c hne

theorem lookup_remove (c : Captures) (name other : String) :
    (c.remove name).lookup other = if other = name then none else c.lookup other := by
  unfold remove
  split
  · rename_i heq
    rw [List.lookup_eq_none_iff]
    intro entry hentry
    rw [List.mem_filter, bne_iff_ne] at hentry
    exact bne_iff_ne.mpr fun h => hentry.2 (h.symm.trans heq)
  · rename_i hne
    exact lookup_filter_of_ne c hne

theorem lookup_restore (c : Captures) (entry : String × Option Value) (other : String) :
    (c.restore entry).lookup other = if other = entry.1 then entry.2 else c.lookup other := by
  obtain ⟨name, _ | old⟩ := entry
  · exact lookup_remove c name other
  · exact lookup_insert c name other old

/-- Two tables give every name the same meaning. -/
def Same (c d : Captures) : Prop :=
  ∀ name, c.lookup name = d.lookup name

theorem Same.rfl : Same c c := fun _ => Eq.refl _

theorem Same.trans (h : Same c d) (h' : Same d e) : Same c e :=
  fun name => (h name).trans (h' name)

theorem Same.restore (h : Same c d) (entry : String × Option Value) :
    Same (c.restore entry) (d.restore entry) := by
  intro other
  rw [lookup_restore, lookup_restore, h other]

/-- Records values one after another, the later in place of the earlier of one name. -/
def overwrite (c : Captures) (entries : List (String × Value)) : Captures :=
  entries.foldl (fun c entry => c.insert entry.1 entry.2) c

@[simp] theorem overwrite_nil : c.overwrite [] = c := by
  rfl

@[simp] theorem overwrite_append {entries rest : List (String × Value)} :
    c.overwrite (entries ++ rest) = (c.overwrite entries).overwrite rest :=
  List.foldl_append

end Captures

/-! ## 2. What the journal can take back -/

namespace Recording

variable {r r' r'' : Recording} {name : String} {v : Value} {entries : Journal}

/-- Takes back the changes that a journal lists. -/
def unwind (c : Captures) (entries : Journal) : Captures :=
  entries.foldl Captures.restore c

theorem same_unwind {c d : Captures} (h : c.Same d) :
    (unwind c entries).Same (unwind d entries) := by
  induction entries generalizing c d with
  | nil => exact h
  | cons entry entries ih => exact ih (h.restore entry)

theorem undoTo_append (c : Captures) (entries base : Journal) :
    undoTo base.length c (entries ++ base) = { captures := unwind c entries, journal := base } := by
  induction entries generalizing c with
  | nil =>
    cases base with
    | nil => rfl
    | cons entry base => exact if_neg (Nat.lt_irrefl _)
  | cons entry entries ih =>
    rw [List.cons_append, undoTo, if_pos, ih]
    · rfl
    · rw [List.length_cons, List.length_append]
      omega

/-- What has been recorded since can be taken back. -/
def Extends (r r' : Recording) : Prop :=
  ∃ entries, r'.journal = entries ++ r.journal ∧ (unwind r'.captures entries).Same r.captures

/-- Nothing is recorded any more that was not before. -/
structure Restored (r r' : Recording) : Prop where
  journal : r'.journal = r.journal
  captures : r'.captures.Same r.captures

theorem Restored.rfl : Restored r r := ⟨Eq.refl _, .rfl⟩

theorem Restored.extends (h : Restored r r') : Extends r r' :=
  ⟨[], h.journal, h.captures⟩

theorem Extends.rfl : Extends r r := Restored.rfl.extends

theorem Extends.trans (h : Extends r r') (h' : Extends r' r'') : Extends r r'' := by
  obtain ⟨entries, hjournal, hsame⟩ := h
  obtain ⟨later, hjournal', hsame'⟩ := h'
  refine ⟨later ++ entries, by rw [hjournal', hjournal, List.append_assoc], ?_⟩
  rw [unwind, List.foldl_append]
  exact (same_unwind hsame').trans hsame

theorem extends_record : Extends r (r.record name v) := by
  refine ⟨[(name, r.captures.lookup name)], Eq.refl _, fun other => ?_⟩
  rw [unwind, List.foldl_cons, List.foldl_nil, Captures.lookup_restore, record,
    Captures.lookup_insert]
  split
  · rename_i heq
    rw [heq]
  · rfl

theorem Extends.undo (h : Extends r r') :
    Restored r (undoTo r.journal.length r'.captures r'.journal) := by
  obtain ⟨entries, hjournal, hsame⟩ := h
  rw [hjournal, undoTo_append]
  exact ⟨Eq.refl _, hsame⟩

/-- Records values one after another. -/
def recordAll (r : Recording) (entries : List (String × Value)) : Recording :=
  entries.foldl (fun r entry => r.record entry.1 entry.2) r

theorem recordAll_append {entries rest : List (String × Value)} :
    r.recordAll (entries ++ rest) = (r.recordAll entries).recordAll rest :=
  List.foldl_append

theorem extends_recordAll {entries : List (String × Value)} : Extends r (r.recordAll entries) := by
  induction entries generalizing r with
  | nil => exact .rfl
  | cons entry entries ih => exact extends_record.trans ih

theorem captures_recordAll {entries : List (String × Value)} :
    (r.recordAll entries).captures = r.captures.overwrite entries := by
  induction entries generalizing r with
  | nil => rfl
  | cons entry entries ih => exact ih

end Recording

/-! ## 3. Where a pattern fits -/

namespace Pattern

open Recording

mutual

/-- Whether every node of a pattern has the shape of the value it is held against. -/
def fits (p : Program) : Pattern → Value → Bool
  | node s _ cs, v => s.test p v && (cs.isEmpty || fitsEach p cs (p.operandsOf v))

/-- Whether there are as many values as patterns, and each fits its own. -/
def fitsEach (p : Program) : List Pattern → List Value → Bool
  | [], [] => true
  | q :: qs, v :: vs => fits p q v && fitsEach p qs vs
  | _, _ => false

end

mutual

/-- The values at the named nodes: a node before its children, and these from left to right. -/
def named (p : Program) : Pattern → Value → List (String × Value)
  | node _ name cs, v => (name.map (·, v)).toList ++ namedEach p cs (p.operandsOf v)

/-- The named values of several patterns. -/
def namedEach (p : Program) : List Pattern → List Value → List (String × Value)
  | q :: qs, v :: vs => named p q v ++ namedEach p qs vs
  | _, _ => []

end

variable {p : Program} {q : Pattern} {qs : List Pattern} {v : Value} {vs : List Value}
  {c c' : Captures} {label : Option String} {s : Shape}

theorem fitsEach_iff :
    fitsEach p qs vs = true ↔ List.Forall₂ (fun q v => q.fits p v = true) qs vs := by
  induction qs generalizing vs with
  | nil => cases vs <;> simp [fitsEach]
  | cons q qs ih => cases vs <;> simp [fitsEach, ih]

theorem fits_iff : (node s label qs).fits p v = true ↔ s.test p v = true ∧
    (qs = [] ∨ List.Forall₂ (fun q v => q.fits p v = true) qs (p.operandsOf v)) := by
  rw [fits, Bool.and_eq_true, Bool.or_eq_true, List.isEmpty_iff, fitsEach_iff]

theorem fitsEach_of_length (h : vs.length ≠ qs.length) : fitsEach p qs vs = false := by
  rw [← Bool.not_eq_true, fitsEach_iff]
  exact fun hall => h hall.length_eq.symm

/-! ## 4. What a match comes to -/

section

variable {left : Recording → Recording → Prop} {fit : Bool} {entries own : List (String × Value)}
  {r : Recording} {result : Bool × Recording}

/-- All that is named is recorded where the pattern fits; otherwise the recording is left in a certain
    relation to the one before. -/
structure Comes (left : Recording → Recording → Prop) (fit : Bool) (entries : List (String × Value))
    (r : Recording) (result : Bool × Recording) : Prop where
  found : result.1 = fit
  all : fit = true → result.2 = r.recordAll entries
  none : fit = false → left r result.2

theorem comes_of_true : Comes left true entries r (true, r.recordAll entries) :=
  ⟨rfl, fun _ => rfl, fun h => Bool.noConfusion h⟩

theorem comes_of_false {r' : Recording} (h : left r r') : Comes left false entries r (false, r') :=
  ⟨rfl, fun h => Bool.noConfusion h, fun _ => h⟩

theorem Comes.node (h : Comes Extends fit entries (r.recordAll own) result) :
    Comes Restored fit (own ++ entries) r (if result.1 then (true, result.2)
      else (false, undoTo r.journal.length result.2.captures result.2.journal)) := by
  obtain ⟨found, tried⟩ := result
  obtain rfl : found = fit := h.found
  cases found with
  | true =>
    rw [if_pos rfl, h.all rfl, ← recordAll_append]
    exact comes_of_true
  | false =>
    rw [if_neg Bool.false_ne_true]
    exact comes_of_false (extends_recordAll.trans (h.none rfl)).undo

theorem Comes.cons {fits : Bool} {rest : List (String × Value)} (next : Recording → Bool × Recording)
    (h : Comes Restored fit entries r result)
    (hnext : Comes Extends fits rest result.2 (next result.2)) :
    Comes Extends (fit && fits) (entries ++ rest) r
      (if result.1 then next result.2 else (false, result.2)) := by
  obtain ⟨found, tried⟩ := result
  obtain rfl : found = fit := h.found
  cases found with
  | false => exact comes_of_false (h.none rfl).extends
  | true =>
    obtain rfl : tried = r.recordAll entries := h.all rfl
    rw [if_pos rfl, Bool.true_and]
    refine ⟨hnext.found, fun hfits => ?_, fun hfits => ?_⟩
    · rw [hnext.all hfits, recordAll_append]
    · exact extends_recordAll.trans (hnext.none hfits)

end

theorem comes_children {r : Recording} (h : vs.length = qs.length →
      Comes Extends (fitsEach p qs vs) (namedEach p qs vs) r (matchEach p qs vs r)) :
    Comes Extends (qs.isEmpty || fitsEach p qs vs) (namedEach p qs vs) r
      (if qs.isEmpty then (true, r)
        else if vs.length != qs.length then (false, r) else matchEach p qs vs r) := by
  cases qs with
  | nil =>
    have hnone : namedEach p [] vs = [] := by
      cases vs <;> rfl
    rw [hnone]
    exact comes_of_true
  | cons q qs =>
    rw [List.isEmpty_cons, if_neg Bool.false_ne_true, Bool.false_or]
    split
    · rename_i hlength
      rw [fitsEach_of_length (bne_iff_ne.mp hlength)]
      exact comes_of_false .rfl
    · rename_i hlength
      rw [bne_iff_ne, not_not] at hlength
      exact h hlength

mutual

theorem comes_matchRecorded : ∀ (q : Pattern) (v : Value) (r : Recording),
    Comes Restored (q.fits p v) (q.named p v) r (q.matchRecorded p v r)
  | node s name cs, v, r => by
    rw [fits, named, matchRecorded]
    cases htest : s.test p v with
    | false => exact comes_of_false .rfl
    | true =>
      have hname : name.elim r (r.record · v) = r.recordAll (name.map (·, v)).toList := by
        cases name <;> rfl
      rw [if_pos rfl, hname]
      exact (comes_children (comes_matchEach cs (p.operandsOf v) _)).node

theorem comes_matchEach : ∀ (qs : List Pattern) (vs : List Value) (r : Recording),
    vs.length = qs.length →
      Comes Extends (fitsEach p qs vs) (namedEach p qs vs) r (matchEach p qs vs r)
  | [], [], _, _ => comes_of_true
  | [], _ :: _, _, hlength => Nat.noConfusion hlength
  | _ :: _, [], _, hlength => Nat.noConfusion hlength
  | q :: qs, v :: vs, r, hlength =>
    (comes_matchRecorded q v r).cons (matchEach p qs vs)
      (comes_matchEach qs vs _ (Nat.succ.inj hlength))

end

theorem attempt_restored (h : q.fits p v = false) : (q.attempt p v c).2.Same c :=
  ((comes_matchRecorded q v { captures := c }).none h).captures

theorem attempt_recorded (h : q.fits p v = true) :
    (q.attempt p v c).2 = c.overwrite (q.named p v) := by
  have hrun := (comes_matchRecorded q v { captures := c }).all h
  exact (congrArg Recording.captures hrun).trans captures_recordAll

theorem attempt_found (q : Pattern) (v : Value) (c : Captures) :
    (q.attempt p v c).1 = q.fits p v :=
  (comes_matchRecorded q v { captures := c }).found

/-- A match asks for nothing in the table; if it fails the table is restored, and if not the names
    of the pattern are recorded, each node before its children. -/
theorem attempt_transactional (p : Program) (q : Pattern) (v : Value) (c : Captures) :
    (∀ d, (q.attempt p v d).1 = (q.attempt p v c).1) ∧
    ((q.attempt p v c).1 = true ↔ q.shape.test p v = true ∧ (q.children = [] ∨
      List.Forall₂ (fun child w => (child.attempt p w c).1 = true) q.children (p.operandsOf v))) ∧
    ((q.attempt p v c).1 = false → ∀ name, (q.attempt p v c).2.lookup name = c.lookup name) ∧
    ((q.attempt p v c).1 = true → (q.attempt p v c).2 = c.overwrite (q.named p v)) := by
  simp only [attempt_found]
  refine ⟨fun _ => trivial, ?_, attempt_restored, attempt_recorded⟩
  obtain ⟨s, label, qs⟩ := q
  exact fits_iff

/-! ## 5. The captures of a match, part by part -/

theorem match?_eq : match? p q v c =
    if q.fits p v then some (c.overwrite (q.named p v)) else none := by
  unfold match?
  cases hfit : q.fits p v with
  | true => simp [attempt_found, hfit, attempt_recorded hfit]
  | false => simp [attempt_found, hfit]

/-- The captures of values held against as many patterns. -/
def matchAll? (p : Program) (qs : List Pattern) (vs : List Value) (c : Captures) : Option Captures :=
  if fitsEach p qs vs then some (c.overwrite (namedEach p qs vs)) else none

theorem matchAll?_nil : matchAll? p [] vs c = some c' ↔ vs = [] ∧ c = c' := by
  cases vs <;> simp [matchAll?, fitsEach, namedEach]

theorem matchAll?_cons : matchAll? p (q :: qs) vs c = some c' ↔
    ∃ v ws d, vs = v :: ws ∧ match? p q v c = some d ∧ matchAll? p qs ws d = some c' := by
  cases vs with
  | nil => simp [matchAll?, fitsEach]
  | cons v ws =>
    simp [matchAll?, match?_eq, fitsEach, namedEach, and_assoc]

theorem overwrite_label :
    c.overwrite (label.map (·, v)).toList = label.elim c (c.insert · v) := by
  cases label <;> rfl

theorem match?_leaf : match? p (node s label []) v c = some c' ↔
    s.test p v = true ∧ label.elim c (c.insert · v) = c' := by
  simp [match?_eq, fits, named, namedEach, overwrite_label]

theorem match?_inner (hqs : qs ≠ []) : match? p (node s label qs) v c = some c' ↔
    s.test p v = true ∧
      matchAll? p qs (p.operandsOf v) (label.elim c (c.insert · v)) = some c' := by
  simp [match?_eq, matchAll?, fits, named, overwrite_label, hqs, and_assoc]

end Pattern

end QirProfile
