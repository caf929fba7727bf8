import Mathlib.Data.List.Basic

/-!
# A non-blocking stream socket, from the writer's side

`write` may take any number of bytes or fail. What it does next is an input of the model: the
socket carries the list of outcomes still to come, and would block (`EAGAIN`) once the list is
used up, so a finite list describes any finite behaviour. `accepted` records what the peer is
going to read.
-/

namespace WasiPorts

abbrev Byte := UInt8

/-- The error numbers the writers distinguish. -/
inductive Errno where
  | eagain
  | eintr
  | other (code : Nat)
  deriving DecidableEq, Repr

/-- What the host does with one `write`: take up to `n` bytes, or fail. -/
inductive WriteOutcome where
  | take (n : Nat)
  | fail (e : Errno)
  deriving DecidableEq, Repr

structure Socket where
  outcomes : List WriteOutcome
  accepted : List Byte
  deriving DecidableEq, Repr

namespace Socket

/-- One `write(2)` of `data`: the count taken, or the error number that goes with `-1`. -/
def write (s : Socket) (data : List Byte) : Except Errno Nat × Socket :=
  match s.outcomes with
  | [] => (.error .eagain, s)
  | .take n :: rest =>
    let k := min n data.length
    (.ok k, ⟨rest, s.accepted ++ data.take k⟩)
  | .fail e :: rest => (.error e, ⟨rest, s.accepted⟩)

/-- A successful `write` takes a prefix of the data and uses up one outcome. -/
theorem write_ok {s s' : Socket} {data : List Byte} {k : Nat}
    (h : s.write data = (.ok k, s')) :
    k ≤ data.length ∧ s'.accepted = s.accepted ++ data.take k ∧
      s'.outcomes.length < s.outcomes.length := by
  unfold write at h
  split at h
  · cases h
  · next n rest hout =>
      cases h
      exact ⟨Nat.min_le_right _ _, rfl, by simp [hout]⟩
  · cases h

/-- A failed `write` takes nothing. -/
theorem write_error {s s' : Socket} {data : List Byte} {e : Errno}
    (h : s.write data = (.error e, s')) :
    s'.accepted = s.accepted ∧ s'.outcomes.length ≤ s.outcomes.length := by
  unfold write at h
  split at h
  · cases h
    exact ⟨rfl, Nat.le_refl _⟩
  · cases h
  · next e' rest hout =>
      cases h
      exact ⟨rfl, by simp [hout]⟩

end Socket

/-! ## Endless behaviour

A loop that retries asks for as many outcomes as it takes. `Outlet` is the socket for such a loop:
its outcomes are an infinite sequence. -/

structure Outlet where
  outcome : Nat → WriteOutcome
  /-- The calls of `write` so far. -/
  calls : Nat
  accepted : List Byte

namespace Outlet

/-- One `write(2)` of `data`: the count taken, or the error number that goes with `-1`. -/
def write (s : Outlet) (data : List Byte) : Except Errno Nat × Outlet :=
  match s.outcome s.calls with
  | .take n =>
    let k := min n data.length
    (.ok k, { s with calls := s.calls + 1, accepted := s.accepted ++ data.take k })
  | .fail e => (.error e, { s with calls := s.calls + 1 })

/-- Only finitely many calls are interrupted. -/
def FinitelyInterrupted (s : Outlet) (K : Nat) : Prop := ∀ i, K ≤ i → s.outcome i ≠ .fail .eintr

theorem write_cases (s : Outlet) (data : List Byte) :
    (∃ k, k ≤ data.length ∧ s.write data =
        (.ok k, { s with calls := s.calls + 1, accepted := s.accepted ++ data.take k })) ∨
      ∃ e, s.outcome s.calls = .fail e ∧
        s.write data = (.error e, { s with calls := s.calls + 1 }) := by
  unfold write
  cases h : s.outcome s.calls with
  | take n => exact .inl ⟨min n data.length, Nat.min_le_right _ _, rfl⟩
  | fail e => exact .inr ⟨e, rfl, rfl⟩

end Outlet

/-- What the host does with one `read`: give some bytes, report the end of the stream, or fail. -/
inductive ReadOutcome where
  | give (b : Byte) (bs : List Byte)
  | eof
  | fail (e : Errno)
  deriving DecidableEq, Repr

/-- The reader's side. `received` records what was read. -/
structure Inlet where
  outcome : Nat → ReadOutcome
  /-- The calls of `read` so far. -/
  calls : Nat
  received : List Byte

namespace Inlet

/-- One `read(2)` of at most `len` bytes: the bytes, none at the end of the stream, or the error
number that goes with `-1`. -/
def read (s : Inlet) (len : Nat) : Except Errno (List Byte) × Inlet :=
  match s.outcome s.calls with
  | .give b bs =>
    let xs := (b :: bs).take len
    (.ok xs, { s with calls := s.calls + 1, received := s.received ++ xs })
  | .eof => (.ok [], { s with calls := s.calls + 1 })
  | .fail e => (.error e, { s with calls := s.calls + 1 })

/-- Only finitely many calls are interrupted. -/
def FinitelyInterrupted (s : Inlet) (K : Nat) : Prop := ∀ i, K ≤ i → s.outcome i ≠ .fail .eintr

theorem read_cases (s : Inlet) {len : Nat} (hlen : 0 < len) :
    (∃ xs, xs ≠ [] ∧ xs.length ≤ len ∧ s.read len =
        (.ok xs, { s with calls := s.calls + 1, received := s.received ++ xs })) ∨
      s.outcome s.calls = .eof ∧ s.read len = (.ok [], { s with calls := s.calls + 1 }) ∨
      ∃ e, s.outcome s.calls = .fail e ∧
        s.read len = (.error e, { s with calls := s.calls + 1 }) := by
  unfold read
  cases h : s.outcome s.calls with
  | give b bs =>
      refine .inl ⟨(b :: bs).take len, ?_, List.length_take_le _ _, rfl⟩
      obtain ⟨n, rfl⟩ := Nat.exists_eq_succ_of_ne_zero (Nat.ne_of_gt hlen)
      simp
  | eof => exact .inr (.inl ⟨rfl, rfl⟩)
  | fail e => exact .inr (.inr ⟨e, rfl, rfl⟩)

end Inlet

end WasiPorts
