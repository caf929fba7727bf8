import Mathlib.Data.List.Nodup

/-!
# A store of owned cells

`malloc`/`free` for values that are never modified in place. A cell is allocated at a fresh
address, stays live until it is freed and is dead ever after. Reading or freeing a dead cell is a
`Fault`, which ends the program: programs run in `StateT` over `Except Fault`.

A run is followed forwards with `bind_run` and the `_run` lemmas, and taken apart with
`bind_returns` and the `_returns` lemmas. `Frame` says what a run leaves alone: dead cells stay
dead, and a part of the rest of the state is kept. It is closed under sequencing.
-/

namespace WasiPorts.CellStore

variable {α β : Type}

abbrev Addr := Nat

/-- `cells[a]` is what address `a` holds, `none` after the cell was freed. -/
structure Store (α : Type) where
  cells : List (Option α)
  deriving DecidableEq, Repr

inductive Fault where
  | deadRead (a : Addr)
  | deadFree (a : Addr)
  deriving DecidableEq, Repr

namespace Store

def size (st : Store α) : Nat := st.cells.length

/-- The contents of a live cell. -/
def get (st : Store α) (a : Addr) : Option α := st.cells[a]?.join

def push (st : Store α) (v : α) : Store α := ⟨st.cells ++ [some v]⟩

def kill (st : Store α) (a : Addr) : Store α := ⟨st.cells.set a none⟩

@[simp] theorem size_push (st : Store α) (v : α) : (st.push v).size = st.size + 1 := by
  simp [size, push]

@[simp] theorem size_kill (st : Store α) (a : Addr) : (st.kill a).size = st.size := by
  simp [size, kill]

@[simp] theorem get_push_self (st : Store α) (v : α) : (st.push v).get st.size = some v := by
  simp [get, push, size]

theorem lt_size_of_get {st : Store α} {a : Addr} {v : α} (h : st.get a = some v) :
    a < st.size := by
  by_contra hge
  rw [get, List.getElem?_eq_none (by simpa [size] using hge)] at h
  cases h

theorem get_push_of_ne {st : Store α} {a : Addr} (v : α) (h : a ≠ st.size) :
    (st.push v).get a = st.get a := by
  by_cases hlt : a < st.cells.length
  · simp [get, push, List.getElem?_append_left hlt]
  · have hgt : st.cells.length < a := Nat.lt_of_le_of_ne (Nat.le_of_not_lt hlt) (Ne.symm h)
    rw [get, get, List.getElem?_eq_none (by simpa [push] using Nat.succ_le_of_lt hgt),
      List.getElem?_eq_none (Nat.le_of_lt hgt)]

@[simp] theorem get_kill_self (st : Store α) (a : Addr) : (st.kill a).get a = none := by
  simp [get, kill, List.getElem?_set]
  split <;> rfl

theorem get_kill_of_ne {st : Store α} {a b : Addr} (h : b ≠ a) :
    (st.kill a).get b = st.get b := by
  simp [get, kill, h.symm]

end Store

/-! ## Programs -/

/-- A store together with the rest of the program's state. -/
structure State (α ρ : Type) where
  store : Store α
  rest : ρ
  deriving DecidableEq, Repr

/-- Programs over a store of `α` cells and a state `ρ` that may fault. -/
abbrev Prog (α ρ : Type) := StateT (State α ρ) (Except Fault)

variable {ρ : Type}

def alloc (v : α) : Prog α ρ Addr := fun s => .ok (s.store.size, { s with store := s.store.push v })

def read (a : Addr) : Prog α ρ α := fun s =>
  match s.store.get a with
  | some v => .ok (v, s)
  | none => .error (.deadRead a)

def free (a : Addr) : Prog α ρ Unit := fun s =>
  match s.store.get a with
  | some _ => .ok ((), { s with store := s.store.kill a })
  | none => .error (.deadFree a)

/-- Change the rest of the state. -/
def update (f : ρ → ρ) : Prog α ρ Unit := fun s => .ok ((), { s with rest := f s.rest })

section Run

variable {s s' : State α ρ} {x : Prog α ρ β} {γ : Type} {f : β → Prog α ρ γ}

theorem bind_run {b : β} (h : x s = .ok (b, s')) : (x >>= f) s = f b s' := by
  change (x s >>= fun p => f p.1 p.2) = _
  rw [h]
  rfl

/-- A sequence that returns has returned from both parts. -/
theorem bind_returns {c : γ} (h : (x >>= f) s = .ok (c, s')) :
    ∃ b s₁, x s = .ok (b, s₁) ∧ f b s₁ = .ok (c, s') := by
  change (x s >>= fun p => f p.1 p.2) = _ at h
  rcases hx : x s with e | ⟨b, s₁⟩
  · rw [hx] at h
    cases h
  · rw [hx] at h
    exact ⟨b, s₁, rfl, h⟩

theorem read_run {a : Addr} {v : α} (h : s.store.get a = some v) : read a s = .ok (v, s) := by
  simp [read, h]

theorem free_run {a : Addr} {v : α} (h : s.store.get a = some v) :
    free a s = .ok ((), { s with store := s.store.kill a }) := by
  simp [free, h]

theorem read_returns {a : Addr} {v : α} (h : read a s = .ok (v, s')) :
    s.store.get a = some v ∧ s' = s := by
  unfold read at h
  split at h
  · next w hw =>
      cases h
      exact ⟨hw, rfl⟩
  · cases h

/-- A cell that could be freed was live, and is dead. -/
theorem free_returns {a : Addr} {u : Unit} (h : free a s = .ok (u, s')) :
    (∃ v, s.store.get a = some v) ∧ s' = { s with store := s.store.kill a } := by
  unfold free at h
  split at h
  · next w hw =>
      cases h
      exact ⟨⟨w, hw⟩, rfl⟩
  · cases h

end Run

/-! ## Dead cells stay dead -/

/-- A later store: cells were added, and no dead cell came back to life. -/
structure Store.Later (st st' : Store α) : Prop where
  size_le : st.size ≤ st'.size
  dead : ∀ a < st.size, st.get a = none → st'.get a = none

theorem Store.Later.refl (st : Store α) : st.Later st := ⟨Nat.le_refl _, fun _ _ h => h⟩

theorem Store.Later.trans {st st' st'' : Store α} (h : st.Later st') (h' : st'.Later st'') :
    st.Later st'' := by
  refine ⟨Nat.le_trans h.size_le h'.size_le, ?_⟩
  intro a ha hn
  exact h'.dead a (Nat.lt_of_lt_of_le ha h.size_le) (h.dead a ha hn)

/-- Whenever the program returns, the store is a later one and the part `g` of the rest of the
state is as it was. -/
def Frame {γ : Type} (g : ρ → γ) (x : Prog α ρ β) : Prop :=
  ∀ s b s', x s = .ok (b, s') → s.store.Later s'.store ∧ g s'.rest = g s.rest

namespace Frame

variable {γ δ : Type} {g : ρ → γ}

theorem bind {x : Prog α ρ β} {f : β → Prog α ρ δ} (hx : Frame g x) (hf : ∀ b, Frame g (f b)) :
    Frame g (x >>= f) := by
  intro s c s' h
  obtain ⟨b, s₁, h1, h2⟩ := bind_returns h
  obtain ⟨hlater, hrest⟩ := hx s b s₁ h1
  obtain ⟨hlater', hrest'⟩ := hf b s₁ c s' h2
  exact ⟨hlater.trans hlater', hrest'.trans hrest⟩

theorem pure (b : β) : Frame g (pure b : Prog α ρ β) := by
  intro s c s' h
  cases h
  exact ⟨.refl _, rfl⟩

theorem alloc (v : α) : Frame g (alloc v : Prog α ρ Addr) := by
  intro s c s' h
  cases h
  refine ⟨⟨by simp, ?_⟩, rfl⟩
  intro a ha hn
  rw [Store.get_push_of_ne v (Nat.ne_of_lt ha), hn]

theorem read (a : Addr) : Frame g (read a : Prog α ρ α) := by
  intro s c s' h
  obtain ⟨-, rfl⟩ := read_returns h
  exact ⟨.refl _, rfl⟩

theorem free (a : Addr) : Frame g (free a : Prog α ρ Unit) := by
  intro s c s' h
  obtain ⟨-, rfl⟩ := free_returns h
  refine ⟨⟨by simp, ?_⟩, rfl⟩
  intro b hb hn
  by_cases hab : b = a
  · rw [hab]
    exact Store.get_kill_self _ _
  · exact (Store.get_kill_of_ne hab).trans hn

theorem update {f : ρ → ρ} (hf : ∀ r, g (f r) = g r) : Frame g (update f : Prog α ρ Unit) := by
  intro s c s' h
  cases h
  exact ⟨.refl _, hf s.rest⟩

end Frame

end WasiPorts.CellStore
