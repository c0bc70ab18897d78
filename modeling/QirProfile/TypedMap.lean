/-!
# Maps whose keys decide the types of their values

A typed map holds at most one value for each key, and the key decides the type of its value. Passes
leave their findings in one for whoever comes later.
-/

namespace QirProfile

/-- Values by key; `τ k` is the type of the value under `k`. No key stands twice. -/
structure TypedMap {κ : Type} (τ : κ → Type) where
  entries : List (Sigma τ) := []

namespace TypedMap

variable {κ : Type} [DecidableEq κ] {τ : κ → Type}

/-- The value of an entry, if it stands under this key. -/
def valueAt? (k : κ) (e : Sigma τ) : Option (τ k) :=
  if h : e.1 = k then some (h ▸ e.2) else none

/-- The value under a key. -/
def get? (s : TypedMap τ) (k : κ) : Option (τ k) :=
  s.entries.findSome? (valueAt? k)

/-- Whether there is a value under a key. -/
def contains (s : TypedMap τ) (k : κ) : Bool :=
  s.entries.any fun e => e.1 = k

/-- Takes the value under a key away. -/
def erase (s : TypedMap τ) (k : κ) : TypedMap τ :=
  ⟨s.entries.filter fun e => e.1 ≠ k⟩

/-- Puts a value under a key, in place of an earlier one. -/
def insert (s : TypedMap τ) (k : κ) (v : τ k) : TypedMap τ :=
  ⟨⟨k, v⟩ :: (s.erase k).entries⟩

/-- The number of values. -/
def size (s : TypedMap τ) : Nat := s.entries.length

/-- Whether there are no values. -/
def isEmpty (s : TypedMap τ) : Bool := s.entries.isEmpty

theorem get?_insert_self (s : TypedMap τ) (k : κ) (v : τ k) : (s.insert k v).get? k = some v := by
  simp [insert, get?, valueAt?]

theorem get?_erase_self (s : TypedMap τ) (k : κ) : (s.erase k).get? k = none := by
  simp only [get?, erase, List.findSome?_eq_none_iff, List.mem_filter]
  intro e he
  have : e.1 ≠ k := by simpa using he.2
  simp [valueAt?, this]

end TypedMap

end QirProfile
