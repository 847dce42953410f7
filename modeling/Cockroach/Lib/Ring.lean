import Mathlib

/-!
# Ring buffers read as lists

A ring has `size` slots, of which `count` are in use from `start` on. Slots are
read by any function, so that nothing is said about how they are stored. A
position runs past the end at most once.
-/

namespace Cockroach.Lib

open List

variable {α : Type*}

/-- Position `i` of a ring of `size` slots. -/
def wrap (size i : Nat) : Nat := if i ≥ size then i - size else i

/-- The elements in use, first one first. -/
def ring (get : Nat → α) (size start count : Nat) : List α :=
  (List.range count).map fun k => get (wrap size (start + k))

variable {get get' : Nat → α} {size start count : Nat}

@[simp] theorem ring_zero : ring get size start 0 = [] := rfl

@[simp] theorem length_ring : (ring get size start count).length = count := by simp [ring]

theorem wrap_of_lt {i : Nat} (h : i < size) : wrap size i = i := if_neg (not_le.mpr h)

theorem wrap_lt {i : Nat} (h : i < 2 * size) : wrap size i < size := by
  unfold wrap
  split <;> omega

theorem ring_concat : ring get size start (count + 1) =
    ring get size start count ++ [get (wrap size (start + count))] := by
  simp [ring, range_succ]

theorem ring_cons (hstart : start < size) (hcount : count < size) :
    ring get size start (count + 1) =
      get start :: ring get size (wrap size (start + 1)) count := by
  unfold ring
  rw [range_succ_eq_map, map_cons, map_map, Nat.add_zero, wrap_of_lt hstart]
  congr 1
  refine map_congr_left fun k hk => ?_
  have hlt : k < count := mem_range.mp hk
  show get (wrap size (start + (k + 1))) = get (wrap size (wrap size (start + 1) + k))
  congr 1
  unfold wrap
  split <;> split <;> split <;> omega

theorem ring_congr (h : ∀ k < count, get (wrap size (start + k)) = get' (wrap size (start + k))) :
    ring get size start count = ring get' size start count :=
  map_congr_left fun k hk => h k (mem_range.mp hk)

/-- The slot after the last one is not in use. -/
theorem wrap_ne {k : Nat} (hcount : count < size) (hk : k < count) :
    wrap size (start + k) ≠ wrap size (start + count) := by
  unfold wrap
  split <;> split <;> omega

end Cockroach.Lib
