import Mathlib.Data.List.Basic
import Mathlib.Data.List.Nodup
import Mathlib.Logic.Function.Basic

/-!
# Byte memory

A memory is a function from addresses to values. `load` reads a range; ranges that are adjacent load
as one range (`load_add`). Scattered input goes to a list of addresses: `scatter` stores along the
list, and what was stored along distinct addresses is read back along them (`map_scatter_take`),
while all other addresses keep their values (`map_scatter_of_disjoint`).
-/

namespace WasiPorts.Memory

variable {B : Type*}

/-! ## Ranges -/

/-- The `n` values from the address `a` on. -/
def load (m : Nat → B) (a n : Nat) : List B := (List.range' a n).map m

@[simp] theorem load_zero (m : Nat → B) (a : Nat) : load m a 0 = [] := rfl

@[simp] theorem load_length (m : Nat → B) (a n : Nat) : (load m a n).length = n := by
  simp [load]

/-- Adjacent ranges are one range. -/
theorem load_add (m : Nat → B) (a n k : Nat) :
    load m a (n + k) = load m a n ++ load m (a + n) k := by
  rw [load, ← List.range'_append_1, List.map_append]
  rfl

theorem take_load (m : Nat → B) (a : Nat) {n k : Nat} (h : k ≤ n) :
    (load m a n).take k = load m a k := by
  obtain ⟨d, rfl⟩ := Nat.exists_eq_add_of_le h
  rw [load_add, List.take_left' (load_length m a k)]

theorem drop_load (m : Nat → B) (a : Nat) {n k : Nat} (h : k ≤ n) :
    (load m a n).drop k = load m (a + k) (n - k) := by
  obtain ⟨d, rfl⟩ := Nat.exists_eq_add_of_le h
  rw [load_add, List.drop_left' (load_length m a k), Nat.add_sub_cancel_left]

/-! ## Scattered input -/

/-- `bs` stored along the addresses `as`. -/
def scatter (m : Nat → B) : List Nat → List B → Nat → B
  | a :: as, b :: bs => scatter (Function.update m a b) as bs
  | _, _ => m

@[simp] theorem scatter_nil (m : Nat → B) (as : List Nat) : scatter m as [] = m := by
  cases as <;> rfl

theorem scatter_append (m : Nat → B) (as as' : List Nat) (bs bs' : List B)
    (h : as.length = bs.length) :
    scatter m (as ++ as') (bs ++ bs') = scatter (scatter m as bs) as' bs' := by
  induction as generalizing m bs with
  | nil =>
      obtain rfl : bs = [] := List.length_eq_zero_iff.mp h.symm
      rfl
  | cons a as ih =>
      cases bs with
      | nil => cases h
      | cons b bs => exact ih (Function.update m a b) bs (Nat.succ.inj h)

theorem scatter_of_notMem (m : Nat → B) {as : List Nat} (bs : List B) {x : Nat} (h : x ∉ as) :
    scatter m as bs x = m x := by
  induction as generalizing m bs with
  | nil => rfl
  | cons a as ih =>
      cases bs with
      | nil => rfl
      | cons b bs =>
          rw [List.mem_cons, not_or] at h
          rw [scatter, ih (Function.update m a b) bs h.2, Function.update_of_ne h.1]

/-- Addresses apart from the list keep their values. -/
theorem map_scatter_of_disjoint (m : Nat → B) {as xs : List Nat} (bs : List B)
    (h : ∀ x ∈ xs, x ∉ as) : xs.map (scatter m as bs) = xs.map m :=
  List.map_congr_left fun x hx => scatter_of_notMem m bs (h x hx)

/-- What was stored is read back. -/
theorem map_scatter_take (m : Nat → B) {as : List Nat} (bs : List B) (hnd : as.Nodup)
    (hlen : bs.length ≤ as.length) : (as.take bs.length).map (scatter m as bs) = bs := by
  induction as generalizing m bs with
  | nil =>
      obtain rfl : bs = [] := List.length_eq_zero_iff.mp (Nat.le_zero.mp hlen)
      rfl
  | cons a as ih =>
      cases bs with
      | nil => rfl
      | cons b bs =>
          obtain ⟨ha, hnd⟩ := List.nodup_cons.mp hnd
          have hhead : scatter (Function.update m a b) as bs a = b := by
            rw [scatter_of_notMem _ bs ha, Function.update_self]
          rw [List.length_cons, List.take_succ_cons, List.map_cons, scatter, hhead,
            ih (Function.update m a b) bs hnd (Nat.le_of_succ_le_succ hlen)]

end WasiPorts.Memory
