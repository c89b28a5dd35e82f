import Mathlib.Data.List.Basic
import Mathlib.Logic.Function.Basic

/-! A key-value store with optimistic locking. A key holds the values that were ever put
under it, newest first, so that its version is their number and 0 when it is absent. -/
namespace VersionedStore

variable {K V : Type}

/-- A value as a client holds it; a new one carries the empty version. -/
structure Versioned (V : Type) where
  value : V
  version : ℕ := 0
  deriving DecidableEq

abbrev Store (K V : Type) := K → List V

def Store.value (s : Store K V) (k : K) : Option V := (s k).head?

def Store.get (s : Store K V) (k : K) : Option (Versioned V) :=
  (s k).head?.map fun v => ⟨v,(s k).length⟩

/-- Everything that was put before is still there. -/
def Store.Grows (s s' : Store K V) : Prop := ∀ k, s k <:+ s' k

theorem Store.Grows.refl (s : Store K V) : s.Grows s := fun _ => List.suffix_rfl

theorem Store.Grows.trans {s s' s'' : Store K V} (h : s.Grows s') (h' : s'.Grows s'') :
    s.Grows s'' := fun k => (h k).trans (h' k)

theorem Store.Grows.ne_nil {s s' : Store K V} (h : s.Grows s') {k : K} (hk : s k ≠ []) :
    s' k ≠ [] := by
  intro hnil
  have hsuffix := h k
  rw [hnil,List.suffix_nil] at hsuffix
  exact hk hsuffix

theorem Store.get_eq_some {s : Store K V} {k : K} {x : Versioned V} :
    s.get k = some x ↔ ∃ vs, s k = x.value::vs ∧ x.version = vs.length+1 := by
  cases hk : s k with
  | nil => simp [Store.get,hk]
  | cons v vs =>
    simp only [Store.get,hk,List.head?_cons,Option.map_some,Option.some.injEq,List.length_cons,
      List.cons.injEq]
    constructor
    · rintro rfl
      exact ⟨vs,⟨rfl,rfl⟩,rfl⟩
    · rintro ⟨vs',⟨rfl,rfl⟩,hversion⟩
      cases x
      simp_all

theorem Store.value_eq_some {s : Store K V} {k : K} {v : V} :
    s.value k = some v ↔ ∃ vs, s k = v::vs := List.head?_eq_some_iff

theorem Store.map_get (s : Store K V) (k : K) : (s.get k).map (·.value) = s.value k := by
  cases h : s k <;> simp [Store.get,Store.value,h]

/-- A version that is still current belongs to the value that was read. -/
theorem Store.Grows.eq_of_length {s s' : Store K V} (h : s.Grows s') {k : K}
    (hlength : (s k).length = (s' k).length) : s' k = s k :=
  ((h k).eq_of_length hlength).symm

variable [DecidableEq K]

def Store.write (s : Store K V) (k : K) (v : V) : Store K V := Function.update s k (v::s k)

@[simp] theorem Store.write_self (s : Store K V) (k : K) (v : V) : s.write k v k = v::s k := by
  simp [Store.write]

@[simp] theorem Store.write_of_ne (s : Store K V) {k k' : K} (v : V) (h : k' ≠ k) :
    s.write k v k' = s k' := by
  simp [Store.write,h]

theorem Store.grows_write (s : Store K V) (k : K) (v : V) : s.Grows (s.write k v) := by
  intro k'
  by_cases h : k' = k
  · subst h
    rw [Store.write_self]
    exact List.suffix_cons v _
  · exact (Store.write_of_ne s v h).symm ▸ List.suffix_rfl

end VersionedStore
