import WasiPorts.Lib.Posix
import WasiPorts.Lib.Socket

/-!
# Positional input and output

`pread` and `pwrite` on an open file. How many bytes a call moves, and whether it fails, is decided by
the host: the file carries an infinite sequence of outcomes. A call that is asked for something moves
at least one byte, except for a read at the end of the file.

A write of nothing leaves the file alone, and what is written in several pieces, each where the one
before ended, is written as a whole (`pwriteAt_append`).
-/

namespace WasiPorts.Posix

variable {D : Type}

/-! ## Writing at an offset -/

namespace Inode

variable [Inhabited D]

/-- `xs` written at `off`; a write of no bytes does not extend the file. -/
def pwriteAt (f : Inode D) (off : Nat) (xs : List D) : Inode D :=
  if xs = [] then f else f.storeAt off xs

@[simp] theorem pwriteAt_nil (f : Inode D) (off : Nat) : f.pwriteAt off [] = f := if_pos rfl

theorem pwriteAt_of_ne_nil (f : Inode D) (off : Nat) {xs : List D} (h : xs ≠ []) :
    f.pwriteAt off xs = f.storeAt off xs := if_neg h

/-- The file after a write, byte by byte. -/
theorem storeAt_getElem? (f : Inode D) (off : Nat) (xs : List D) (i : Nat) :
    (f.storeAt off xs).data[i]? =
      if i < off then if i < f.data.length then f.data[i]? else some default
      else if i < off + xs.length then xs[i - off]? else f.data[i]? := by
  have hlen : (f.data.take off ++ List.replicate (off - f.data.length) default).length = off := by
    rw [List.length_append, List.length_take, List.length_replicate]
    omega
  show (f.data.take off ++ List.replicate (off - f.data.length) default ++ xs ++
    f.data.drop (off + xs.length))[i]? = _
  by_cases hoff : i < off
  · rw [if_pos hoff, List.append_assoc, List.getElem?_append_left (by omega)]
    by_cases hdata : i < f.data.length
    · rw [if_pos hdata, List.getElem?_append_left (by rw [List.length_take]; omega),
        List.getElem?_take_of_lt hoff]
    · rw [if_neg hdata, List.getElem?_append_right (by rw [List.length_take]; omega),
        List.getElem?_replicate, if_pos (by rw [List.length_take]; omega)]
  · rw [if_neg hoff, List.append_assoc, List.getElem?_append_right (by omega), hlen]
    by_cases hxs : i < off + xs.length
    · rw [if_pos hxs, List.getElem?_append_left (by omega)]
    · rw [if_neg hxs, List.getElem?_append_right (by omega), List.getElem?_drop]
      congr 1
      omega

theorem storeAt_append (f : Inode D) (off : Nat) (xs ys : List D) :
    (f.storeAt off xs).storeAt (off + xs.length) ys = f.storeAt off (xs ++ ys) := by
  have hdata : ((f.storeAt off xs).storeAt (off + xs.length) ys).data =
      (f.storeAt off (xs ++ ys)).data := by
    apply List.ext_getElem?
    intro i
    rw [storeAt_getElem?, storeAt_getElem?, storeAt_getElem?, storeAt_data_length,
      List.length_append, List.getElem?_append]
    grind
  have hsynced : min (min f.synced off) (off + xs.length) = min f.synced off := by omega
  unfold storeAt at hdata ⊢
  simp only [mk.injEq]
  exact ⟨hdata, hsynced⟩

/-- Two writes, the second where the first ended, are one. -/
theorem pwriteAt_append (f : Inode D) (off : Nat) (xs ys : List D) :
    (f.pwriteAt off xs).pwriteAt (off + xs.length) ys = f.pwriteAt off (xs ++ ys) := by
  by_cases hxs : xs = []
  · subst hxs
    rfl
  · by_cases hys : ys = []
    · subst hys
      simp
    · rw [pwriteAt_of_ne_nil _ _ hxs, pwriteAt_of_ne_nil _ _ hys,
        pwriteAt_of_ne_nil _ _ (by simp [hxs]), storeAt_append]

/-- The bytes that were written. -/
theorem pwriteAt_written (f : Inode D) (off : Nat) {xs : List D} {i : Nat} (hi : i < xs.length) :
    (f.pwriteAt off xs).data[off + i]? = xs[i]? := by
  have hne : xs ≠ [] := List.ne_nil_of_length_pos (by omega)
  rw [pwriteAt_of_ne_nil f off hne, storeAt_getElem?, if_neg (by omega), if_pos (by omega),
    Nat.add_sub_cancel_left]

/-- All other bytes. -/
theorem pwriteAt_kept (f : Inode D) (off : Nat) (xs : List D) {i : Nat} (hi : i < f.data.length)
    (hout : i < off ∨ off + xs.length ≤ i) : (f.pwriteAt off xs).data[i]? = f.data[i]? := by
  by_cases hne : xs = []
  · rw [hne, pwriteAt_nil]
  · rw [pwriteAt_of_ne_nil f off hne, storeAt_getElem?]
    grind

theorem pwriteAt_length (f : Inode D) (off : Nat) {xs : List D} (h : xs ≠ []) :
    (f.pwriteAt off xs).data.length = max f.data.length (off + xs.length) := by
  rw [pwriteAt_of_ne_nil _ _ h, storeAt_data_length]

end Inode

/-! ## A file on a host -/

/-- What the host does with one call: move up to `n + 1` bytes, or fail. -/
inductive IoOutcome where
  | move (n : Nat)
  | fail (e : Errno)
  deriving DecidableEq, Repr

structure HostedFile (D : Type) where
  inode : Inode D
  outcome : Nat → IoOutcome
  /-- The calls so far. -/
  calls : Nat

namespace HostedFile

/-- `pread` of at most `size` bytes from `off` on. -/
def pread (f : HostedFile D) (size off : Nat) : Except Errno (List D) × HostedFile D :=
  match f.outcome f.calls with
  | .move n => (.ok (((f.inode.data.drop off).take size).take (n + 1)), { f with calls := f.calls + 1 })
  | .fail e => (.error e, { f with calls := f.calls + 1 })

/-- `pwrite` of `xs` at `off`: the number of bytes written. -/
def pwrite [Inhabited D] (f : HostedFile D) (xs : List D) (off : Nat) :
    Except Errno Nat × HostedFile D :=
  match f.outcome f.calls with
  | .move n =>
    (.ok (xs.take (n + 1)).length,
      { f with inode := f.inode.pwriteAt off (xs.take (n + 1)), calls := f.calls + 1 })
  | .fail e => (.error e, { f with calls := f.calls + 1 })

/-- Only finitely many calls are interrupted. -/
def FinitelyInterrupted (f : HostedFile D) (K : Nat) : Prop := ∀ i, K ≤ i → f.outcome i ≠ .fail .eintr

end HostedFile

end WasiPorts.Posix
