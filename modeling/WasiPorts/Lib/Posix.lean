import Mathlib.Data.Fintype.EquivFin
import Mathlib.Data.Set.Basic
import Mathlib.Data.Set.Insert
import Mathlib.Logic.Function.Basic

/-!
# A POSIX file system

Files are inodes, reached by name through directory entries and by descriptor through open
handles. Renaming and unlinking act on entries only, so a descriptor keeps its file. An inode
remembers how long a prefix of it is known to be on stable storage.

Names are of any type `P`, file contents are lists over any type `D`, whose default element fills
the holes that a write past the end leaves.

* `file` — what a name leads to.
* `OpenAt fd p` — a write to `fd` appends to the file called `p`.
* `OpenTo fd hd p` — `fd` is open on the file called `p`, at the offset in `hd`.

For each operation the lemmas say what it does to `file`, `OpenAt` and `OpenTo`, for the name it is
about and for every other name.
-/

namespace WasiPorts.Posix

variable {P D : Type}

structure Inode (D : Type) where
  data : List D
  /-- Length of the prefix of `data` that a successful `fsync` has covered. -/
  synced : Nat
  synced_le : synced ≤ data.length
  deriving DecidableEq, Repr

namespace Inode

/-- An empty file. -/
def new : Inode D := ⟨[], 0, Nat.le_refl 0⟩

/-- `xs` added at the end. -/
def append (f : Inode D) (xs : List D) : Inode D :=
  ⟨f.data ++ xs, f.synced, by rw [List.length_append]; exact Nat.le_add_right_of_le f.synced_le⟩

/-- All of the file on stable storage. -/
def sync (f : Inode D) : Inode D := ⟨f.data, f.data.length, Nat.le_refl _⟩

/-- `xs` stored at `off`. A gap before it is filled, and what lay beyond `off` has to be synced
again. -/
def storeAt [Inhabited D] (f : Inode D) (off : Nat) (xs : List D) : Inode D :=
  ⟨f.data.take off ++ List.replicate (off - f.data.length) default ++ xs ++
      f.data.drop (off + xs.length),
    min f.synced off, by
      simp only [List.length_append, List.length_take, List.length_replicate]
      omega⟩

/-- Cut or extended to length `n`. -/
def resize [Inhabited D] (f : Inode D) (n : Nat) : Inode D :=
  ⟨f.data.take n ++ List.replicate (n - f.data.length) default, min f.synced n, by
    have := f.synced_le
    simp only [List.length_append, List.length_take, List.length_replicate]
    omega⟩

@[simp] theorem new_data : (new : Inode D).data = [] := rfl
@[simp] theorem append_data (f : Inode D) (xs : List D) : (f.append xs).data = f.data ++ xs := rfl
@[simp] theorem append_synced (f : Inode D) (xs : List D) : (f.append xs).synced = f.synced := rfl
@[simp] theorem sync_data (f : Inode D) : f.sync.data = f.data := rfl
theorem storeAt_length [Inhabited D] (f : Inode D) (xs : List D) :
    f.storeAt f.data.length xs = f.append xs := by
  have hsync : min f.synced f.data.length = f.synced := Nat.min_eq_left f.synced_le
  simp [storeAt, append, hsync]

theorem storeAt_data_length [Inhabited D] (f : Inode D) (off : Nat) (xs : List D) :
    (f.storeAt off xs).data.length = max f.data.length (off + xs.length) := by
  simp only [storeAt, List.length_append, List.length_take, List.length_replicate,
    List.length_drop]
  omega

/-- Cutting back to the old length undoes what was stored behind the end. -/
theorem resize_storeAt_data [Inhabited D] (f : Inode D) {off : Nat} (h : f.data.length ≤ off)
    (xs : List D) : ((f.storeAt off xs).resize f.data.length).data = f.data := by
  have hlen := f.storeAt_data_length off xs
  have hle : f.data.length - (f.storeAt off xs).data.length = 0 := by omega
  show (f.storeAt off xs).data.take f.data.length ++ List.replicate _ default = f.data
  rw [hle]
  simp [storeAt, List.take_of_length_le h, List.append_assoc]

/-- What is stored behind the end leaves a gap, and no data becomes less safe. -/
theorem storeAt_behind [Inhabited D] (f : Inode D) {off : Nat} (h : f.data.length ≤ off)
    (xs : List D) :
    (f.storeAt off xs).data = f.data ++ List.replicate (off - f.data.length) default ++ xs ∧
      (f.storeAt off xs).synced = f.synced := by
  have hsync := f.synced_le
  refine ⟨?_, Nat.min_eq_left (Nat.le_trans hsync h)⟩
  simp only [storeAt, List.take_of_length_le h]
  rw [List.drop_eq_nil_of_le (Nat.le_add_right_of_le h), List.append_nil]

@[simp] theorem sync_synced (f : Inode D) : f.sync.synced = f.data.length := rfl

end Inode

structure Handle where
  ino : Nat
  off : Nat
  /-- `O_APPEND`. -/
  append : Bool
  deriving DecidableEq, Repr

/-- Where `write` stores through the descriptor, if it is open on `f`. -/
def Handle.writeOff (hd : Handle) (f : Inode D) : Nat :=
  if hd.append then f.data.length else hd.off

structure Fs (P D : Type) where
  dir : P → Option Nat
  inode : Nat → Inode D
  nextIno : Nat
  handle : Nat → Option Handle
  nextFd : Nat
  dir_lt : ∀ p i, dir p = some i → i < nextIno
  /-- No hard links. -/
  dir_inj : ∀ p q i, dir p = some i → dir q = some i → p = q
  handle_lt : ∀ fd h, handle fd = some h → fd < nextFd
  handle_ino_lt : ∀ fd h, handle fd = some h → h.ino < nextIno

namespace Fs

/-- No files. -/
def empty : Fs P D :=
  ⟨fun _ => none, fun _ => .new, 0, fun _ => none, 0, nofun, nofun, nofun, nofun⟩

/-- The file called `p`. -/
def file (fs : Fs P D) (p : P) : Option (Inode D) := (fs.dir p).map fs.inode

/-- The contents of the file called `p`. -/
def data (fs : Fs P D) (p : P) : Option (List D) := (fs.file p).map (·.data)

/-- `fd` is open on the file called `p`, and writes go to its end. -/
def OpenAt (fs : Fs P D) (fd : Nat) (p : P) : Prop :=
  ∃ h, fs.handle fd = some h ∧ fs.dir p = some h.ino ∧
    (h.append = true ∨ h.off = (fs.inode h.ino).data.length)

/-- `fd` is open on the file called `p`, wherever its writes go. -/
def OpenTo (fs : Fs P D) (fd : Nat) (hd : Handle) (p : P) : Prop :=
  fs.handle fd = some hd ∧ fs.dir p = some hd.ino

/-! ## Operations -/

section Operations

variable [DecidableEq P]

/-- Changes one inode. -/
def setInode (fs : Fs P D) (i : Nat) (f : Inode D) : Fs P D :=
  { fs with inode := Function.update fs.inode i f }

/-- A new empty file called `p`; a file of that name loses its entry. -/
def create (fs : Fs P D) (p : P) : Fs P D where
  dir := Function.update fs.dir p (some fs.nextIno)
  inode := Function.update fs.inode fs.nextIno .new
  nextIno := fs.nextIno + 1
  handle := fs.handle
  nextFd := fs.nextFd
  dir_lt := by
    intro q i hq
    by_cases h : q = p
    · subst h
      simp only [Function.update_self, Option.some.injEq] at hq
      omega
    · rw [Function.update_of_ne h] at hq
      have := fs.dir_lt q i hq
      omega
  dir_inj := by
    intro q r i hq hr
    have hlt : ∀ s, s ≠ p → fs.dir s ≠ some fs.nextIno := by
      intro s _ hs
      exact absurd (fs.dir_lt s _ hs) (by omega)
    by_cases h : q = p <;> by_cases h' : r = p
    · rw [h, h']
    · subst h
      rw [Function.update_self, Option.some.injEq] at hq
      rw [Function.update_of_ne h', ← hq] at hr
      exact absurd hr (hlt r h')
    · subst h'
      rw [Function.update_self, Option.some.injEq] at hr
      rw [Function.update_of_ne h, ← hr] at hq
      exact absurd hq (hlt q h)
    · rw [Function.update_of_ne h] at hq
      rw [Function.update_of_ne h'] at hr
      exact fs.dir_inj q r i hq hr
  handle_lt := fs.handle_lt
  handle_ino_lt := fun fd h hh => Nat.lt_succ_of_lt (fs.handle_ino_lt fd h hh)

/-- A new descriptor on inode `i`, at offset 0. -/
def newHandle (fs : Fs P D) (i : Nat) (hi : i < fs.nextIno) (append : Bool) : Fs P D where
  dir := fs.dir
  inode := fs.inode
  nextIno := fs.nextIno
  handle := Function.update fs.handle fs.nextFd (some ⟨i, 0, append⟩)
  nextFd := fs.nextFd + 1
  dir_lt := fs.dir_lt
  dir_inj := fs.dir_inj
  handle_lt := by
    intro fd h hh
    by_cases hfd : fd = fs.nextFd
    · omega
    · rw [Function.update_of_ne hfd] at hh
      exact Nat.lt_succ_of_lt (fs.handle_lt fd h hh)
  handle_ino_lt := by
    intro fd h hh
    by_cases hfd : fd = fs.nextFd
    · subst hfd
      rw [Function.update_self, Option.some.injEq] at hh
      subst hh
      exact hi
    · rw [Function.update_of_ne hfd] at hh
      exact fs.handle_ino_lt fd h hh

/-- `open` with `O_CREAT`, and with `O_TRUNC` and `O_APPEND` as given. -/
def openFile (fs : Fs P D) (p : P) (trunc append : Bool) : Nat × Fs P D :=
  (fs.nextFd,
    match h : fs.dir p with
    | none => (fs.create p).newHandle fs.nextIno (Nat.lt_succ_self _) append
    | some i =>
      if trunc then (fs.setInode i .new).newHandle i (fs.dir_lt p i h) append
      else fs.newHandle i (fs.dir_lt p i h) append)

/-- Moves the offset of an open descriptor. -/
def setOff (fs : Fs P D) (fd : Nat) (h : Handle) (hfd : fs.handle fd = some h) (off : Nat) :
    Fs P D where
  dir := fs.dir
  inode := fs.inode
  nextIno := fs.nextIno
  handle := Function.update fs.handle fd (some { h with off := off })
  nextFd := fs.nextFd
  dir_lt := fs.dir_lt
  dir_inj := fs.dir_inj
  handle_lt := by
    intro fd' h' hh
    by_cases hne : fd' = fd
    · subst hne
      exact fs.handle_lt fd' h hfd
    · rw [Function.update_of_ne hne] at hh
      exact fs.handle_lt fd' h' hh
  handle_ino_lt := by
    intro fd' h' hh
    by_cases hne : fd' = fd
    · subst hne
      rw [Function.update_self, Option.some.injEq] at hh
      subst hh
      exact fs.handle_ino_lt fd' h hfd
    · rw [Function.update_of_ne hne] at hh
      exact fs.handle_ino_lt fd' h' hh

/-- `write`, storing all of `xs`. -/
def write [Inhabited D] (fs : Fs P D) (fd : Nat) (xs : List D) : Fs P D :=
  match h : fs.handle fd with
  | none => fs
  | some hd =>
    let f := fs.inode hd.ino
    let off := if hd.append then f.data.length else hd.off
    (fs.setInode hd.ino (f.storeAt off xs)).setOff fd hd h (off + xs.length)

/-- `ftruncate`. The offset of the descriptor stays. -/
def ftruncate [Inhabited D] (fs : Fs P D) (fd n : Nat) : Fs P D :=
  match fs.handle fd with
  | none => fs
  | some hd => fs.setInode hd.ino ((fs.inode hd.ino).resize n)

/-- `truncate`. -/
def truncate [Inhabited D] (fs : Fs P D) (p : P) (n : Nat) : Fs P D :=
  match fs.dir p with
  | none => fs
  | some i => fs.setInode i ((fs.inode i).resize n)

/-- A successful `fsync`. -/
def fsync (fs : Fs P D) (fd : Nat) : Fs P D :=
  match fs.handle fd with
  | none => fs
  | some hd => fs.setInode hd.ino (fs.inode hd.ino).sync

def close (fs : Fs P D) (fd : Nat) : Fs P D where
  dir := fs.dir
  inode := fs.inode
  nextIno := fs.nextIno
  handle := Function.update fs.handle fd none
  nextFd := fs.nextFd
  dir_lt := fs.dir_lt
  dir_inj := fs.dir_inj
  handle_lt := by
    intro fd' h hh
    by_cases hne : fd' = fd
    · subst hne
      simp at hh
    · rw [Function.update_of_ne hne] at hh
      exact fs.handle_lt fd' h hh
  handle_ino_lt := by
    intro fd' h hh
    by_cases hne : fd' = fd
    · subst hne
      simp at hh
    · rw [Function.update_of_ne hne] at hh
      exact fs.handle_ino_lt fd' h hh

/-- The end of the process: its descriptors are closed. -/
def closeAll (fs : Fs P D) : Fs P D :=
  { fs with handle := fun _ => none, handle_lt := nofun, handle_ino_lt := nofun }

/-- `unlink`. -/
def unlink (fs : Fs P D) (p : P) : Fs P D where
  dir := Function.update fs.dir p none
  inode := fs.inode
  nextIno := fs.nextIno
  handle := fs.handle
  nextFd := fs.nextFd
  dir_lt := by
    intro q i hq
    by_cases h : q = p
    · subst h
      simp at hq
    · rw [Function.update_of_ne h] at hq
      exact fs.dir_lt q i hq
  dir_inj := by
    intro q r i hq hr
    by_cases h : q = p
    · subst h
      simp at hq
    · by_cases h' : r = p
      · subst h'
        simp at hr
      · rw [Function.update_of_ne h] at hq
        rw [Function.update_of_ne h'] at hr
        exact fs.dir_inj q r i hq hr
  handle_lt := fs.handle_lt
  handle_ino_lt := fs.handle_ino_lt

/-- An entry called `q` for inode `i`, which has none. -/
def link (fs : Fs P D) (q : P) (i : Nat) (hi : i < fs.nextIno) (hfree : ∀ r, fs.dir r ≠ some i) :
    Fs P D where
  dir := Function.update fs.dir q (some i)
  inode := fs.inode
  nextIno := fs.nextIno
  handle := fs.handle
  nextFd := fs.nextFd
  dir_lt := by
    intro r j hr
    by_cases h : r = q
    · subst h
      rw [Function.update_self, Option.some.injEq] at hr
      subst hr
      exact hi
    · rw [Function.update_of_ne h] at hr
      exact fs.dir_lt r j hr
  dir_inj := by
    intro r s j hr hs
    by_cases h : r = q <;> by_cases h' : s = q
    · rw [h, h']
    · subst h
      rw [Function.update_self, Option.some.injEq] at hr
      rw [Function.update_of_ne h', ← hr] at hs
      exact absurd hs (hfree s)
    · subst h'
      rw [Function.update_self, Option.some.injEq] at hs
      rw [Function.update_of_ne h, ← hs] at hr
      exact absurd hr (hfree r)
    · rw [Function.update_of_ne h] at hr
      rw [Function.update_of_ne h'] at hs
      exact fs.dir_inj r s j hr hs
  handle_lt := fs.handle_lt
  handle_ino_lt := fs.handle_ino_lt

theorem unlink_dir_ne {fs : Fs P D} {p : P} {i : Nat} (h : fs.dir p = some i) (r : P) :
    (fs.unlink p).dir r ≠ some i := by
  intro hr
  simp only [unlink] at hr
  by_cases hrp : r = p
  · simp [hrp] at hr
  · rw [Function.update_of_ne hrp] at hr
    exact hrp (fs.dir_inj r p i hr h)

/-- `rename`. -/
def rename (fs : Fs P D) (p q : P) : Fs P D :=
  match h : fs.dir p with
  | none => fs
  | some i => (fs.unlink p).link q i (fs.dir_lt p i h) (unlink_dir_ne h)

end Operations

/-! ## What the operations do -/

section Effects

variable {fs : Fs P D} {p q r : P} {fd fd' i : Nat} {xs : List D} {f : Inode D}

theorem file_eq_some : fs.file p = some f ↔ ∃ i, fs.dir p = some i ∧ fs.inode i = f := by
  simp [file]

/-- Writing and syncing act on files, not on their names. -/
theorem write_dir [Inhabited D] (fs : Fs P D) (fd : Nat) (xs : List D) :
    (fs.write fd xs).dir = fs.dir := by
  unfold write
  split <;> rfl

theorem ftruncate_dir [Inhabited D] (fs : Fs P D) (fd n : Nat) : (fs.ftruncate fd n).dir = fs.dir := by
  unfold ftruncate
  split <;> rfl

theorem fsync_dir (fs : Fs P D) (fd : Nat) : (fs.fsync fd).dir = fs.dir := by
  unfold fsync
  split <;> rfl

/-- There are only so many files. -/
theorem exists_free {ι : Type} [Infinite ι] (fs : Fs P D) {name : ι → P} (h : Function.Injective name) :
    ∃ i, fs.file (name i) = none := by
  by_contra hall
  have hsome : ∀ i, ∃ j : Fin fs.nextIno, fs.dir (name i) = some j.1 := by
    intro i
    cases hdir : fs.dir (name i) with
    | none => exact absurd ⟨i, by simp [file, hdir]⟩ hall
    | some j => exact ⟨⟨j, fs.dir_lt _ _ hdir⟩, rfl⟩
  choose ino hino using hsome
  refine not_injective_infinite_finite ino fun i i' heq => h (fs.dir_inj _ _ _ (hino i) ?_)
  rw [heq]
  exact hino i'

theorem setInode_file_self (h : fs.dir p = some i) : (fs.setInode i f).file p = some f := by
  simp [file, setInode, h]

theorem setInode_file_ne (h : fs.dir p ≠ some i) : (fs.setInode i f).file p = fs.file p := by
  cases hp : fs.dir p with
  | none => simp [file, setInode, hp]
  | some j =>
      have hij : j ≠ i := by
        intro hji
        exact h (hji ▸ hp)
      simp [file, setInode, hp, Function.update_of_ne hij]

theorem truncate_data_self [Inhabited D] {n : Nat} (h : fs.data p = some xs) (hn : n ≤ xs.length) :
    (fs.truncate p n).data p = some (xs.take n) := by
  obtain ⟨f, hf, rfl⟩ : ∃ f, fs.file p = some f ∧ f.data = xs := by simpa [data] using h
  obtain ⟨i, hdir, rfl⟩ := file_eq_some.mp hf
  have hpad : n - (fs.inode i).data.length = 0 := by omega
  simp only [truncate, hdir, data, setInode_file_self hdir]
  simp [Inode.resize, hpad]

theorem truncate_data_ne [Inhabited D] (n : Nat) (h : q ≠ p) : (fs.truncate p n).data q = fs.data q := by
  unfold truncate
  cases hdir : fs.dir p with
  | none => rfl
  | some i =>
      have hne : fs.dir q ≠ some i := fun hq => h (fs.dir_inj q p i hq hdir)
      simp only [data, setInode_file_ne hne]

variable {hd : Handle}

theorem openAt_iff : fs.OpenAt fd p ↔ ∃ hd f, fs.OpenTo fd hd p ∧ fs.file p = some f ∧
    (hd.append = true ∨ hd.off = f.data.length) := by
  constructor
  · rintro ⟨hd, hfd, hdir, hend⟩
    exact ⟨hd, fs.inode hd.ino, ⟨hfd, hdir⟩, by simp [file, hdir], hend⟩
  · rintro ⟨hd, f, ⟨hfd, hdir⟩, hf, hend⟩
    obtain rfl : fs.inode hd.ino = f := by simpa [file, hdir] using hf
    exact ⟨hd, hfd, hdir, hend⟩

theorem OpenAt.openTo (h : fs.OpenAt fd p) : ∃ hd, fs.OpenTo fd hd p := by
  obtain ⟨hd, hfd, hdir, -⟩ := h
  exact ⟨hd, hfd, hdir⟩

theorem OpenTo.dir_ne (h : fs.OpenTo fd hd p) (hqp : q ≠ p) : fs.dir q ≠ some hd.ino :=
  fun hq => hqp (fs.dir_inj q p hd.ino hq h.2)

/-! ### `write`, `fsync` and `close` -/

theorem OpenAt.write_file [Inhabited D] (h : fs.OpenAt fd p) (hf : fs.file p = some f) :
    (fs.write fd xs).file p = some (f.append xs) := by
  obtain ⟨hd, hfd, hdir, hend⟩ := h
  have hino : fs.inode hd.ino = f := by simpa [file, hdir] using hf
  have hoff : (if hd.append then f.data.length else hd.off) = f.data.length := by
    split
    · rfl
    · next hna => simpa [hna, hino] using hend
  unfold write
  split
  · next h' => simp [hfd] at h'
  · next hd' h' =>
      obtain rfl : hd = hd' := by simpa [hfd] using h'
      show (fs.setInode hd.ino _).file p = _
      rw [setInode_file_self hdir, hino, hoff, Inode.storeAt_length]

theorem OpenTo.write_file_ne [Inhabited D] (h : fs.OpenTo fd hd p) (hqp : q ≠ p) :
    (fs.write fd xs).file q = fs.file q := by
  unfold write
  split
  · rfl
  · next hd' h' =>
      obtain rfl : hd = hd' := Option.some.inj (h.1.symm.trans h')
      show (fs.setInode hd.ino _).file q = _
      exact setInode_file_ne (h.dir_ne hqp)

theorem OpenAt.write [Inhabited D] (h : fs.OpenAt fd p) : (fs.write fd xs).OpenAt fd p := by
  obtain ⟨hd, hfd, hdir, hend⟩ := h
  have hoff : (if hd.append then (fs.inode hd.ino).data.length else hd.off) =
      (fs.inode hd.ino).data.length := by
    split
    · rfl
    · next hna => simpa [hna] using hend
  unfold Fs.write
  split
  · next h' => simp [hfd] at h'
  · next hd' h' =>
      obtain rfl : hd = hd' := by simpa [hfd] using h'
      refine ⟨{ hd with off := (fs.inode hd.ino).data.length + xs.length }, ?_, hdir, .inr ?_⟩
      · simp [setOff, hoff]
      · simp [setOff, setInode, hoff, Inode.storeAt_length]

/-- A write to one file leaves a descriptor on another where it is. -/
theorem OpenTo.write_ne [Inhabited D] {hd' : Handle} (h : fs.OpenTo fd' hd' q)
    (hw : fs.OpenTo fd hd p) (hqp : q ≠ p) : (fs.write fd xs).OpenTo fd' hd' q := by
  obtain ⟨hfd', hdir⟩ := h
  unfold Fs.write
  split
  · exact ⟨hfd', hdir⟩
  · next hw' hfd =>
      have hne : fd' ≠ fd := by
        rintro rfl
        obtain rfl : hd' = hd := Option.some.inj (hfd'.symm.trans hw.1)
        exact hw.dir_ne hqp hdir
      exact ⟨by simpa [setOff, setInode, Function.update_of_ne hne] using hfd', hdir⟩

/-- A write through `fd`, wherever it goes. -/
theorem OpenTo.write [Inhabited D] (h : fs.OpenTo fd hd p) (hf : fs.file p = some f) :
    (fs.write fd xs).OpenTo fd { hd with off := hd.writeOff f + xs.length } p ∧
      (fs.write fd xs).file p = some (f.storeAt (hd.writeOff f) xs) := by
  obtain ⟨hfd, hdir⟩ := h
  obtain rfl : fs.inode hd.ino = f := by simpa [file, hdir] using hf
  unfold Fs.write
  split
  · next h' => simp [hfd] at h'
  · next hd' h' =>
      obtain rfl : hd = hd' := by simpa [hfd] using h'
      exact ⟨⟨by simp [setOff, Handle.writeOff], hdir⟩, setInode_file_self hdir⟩

theorem OpenTo.ftruncate [Inhabited D] {n : Nat} (h : fs.OpenTo fd hd p) (hf : fs.file p = some f) :
    (fs.ftruncate fd n).OpenTo fd hd p ∧ (fs.ftruncate fd n).file p = some (f.resize n) := by
  obtain ⟨hfd, hdir⟩ := h
  obtain rfl : fs.inode hd.ino = f := by simpa [file, hdir] using hf
  simp only [Fs.ftruncate, hfd]
  exact ⟨⟨hfd, hdir⟩, setInode_file_self hdir⟩

theorem OpenTo.ftruncate_file_ne [Inhabited D] {n : Nat} (h : fs.OpenTo fd hd p) (hqp : q ≠ p) :
    (fs.ftruncate fd n).file q = fs.file q := by
  simp only [Fs.ftruncate, h.1]
  exact setInode_file_ne (h.dir_ne hqp)

theorem OpenTo.fsync_file (h : fs.OpenTo fd hd p) (hf : fs.file p = some f) :
    (fs.fsync fd).file p = some f.sync := by
  obtain ⟨hfd, hdir⟩ := h
  have hino : fs.inode hd.ino = f := by simpa [file, hdir] using hf
  simp only [fsync, hfd]
  rw [setInode_file_self hdir, hino]

/-- Whatever is synced, the contents stay and no other data becomes less safe. -/
theorem fsync_file (fs : Fs P D) (fd : Nat) (p : P) :
    (fs.fsync fd).file p = fs.file p ∨ (fs.fsync fd).file p = (fs.file p).map (·.sync) := by
  unfold fsync
  split
  · exact .inl rfl
  · next hd h =>
      by_cases hp : fs.dir p = some hd.ino
      · right
        rw [setInode_file_self hp]
        simp [file, hp]
      · exact .inl (setInode_file_ne hp)

theorem OpenTo.fsync (h : fs.OpenTo fd hd p) (fd' : Nat) : (fs.fsync fd').OpenTo fd hd p := by
  unfold Fs.fsync
  split
  · exact h
  · exact ⟨h.1, h.2⟩

@[simp] theorem close_file (fs : Fs P D) (fd : Nat) (p : P) : (fs.close fd).file p = fs.file p :=
  rfl

theorem OpenTo.close_ne (h : fs.OpenTo fd hd p) (hne : fd ≠ fd') : (fs.close fd').OpenTo fd hd p :=
  ⟨by simp [close, Function.update_of_ne hne, h.1], h.2⟩

theorem close_openAt_iff (hne : fd ≠ fd') : (fs.close fd').OpenAt fd p ↔ fs.OpenAt fd p := by
  simp [OpenAt, close, Function.update_of_ne hne]

variable [DecidableEq P]

/-! ### `open` -/

theorem openFile_file_self (trunc append : Bool) :
    (fs.openFile p trunc append).2.file p =
      some (if trunc then .new else (fs.file p).getD .new) := by
  simp only [openFile]
  split
  · next h => cases trunc <;> simp [file, newHandle, create, h]
  · next i h => cases trunc <;> simp [file, newHandle, setInode, h]

theorem openFile_file_ne (trunc append : Bool) (hqp : q ≠ p) :
    (fs.openFile p trunc append).2.file q = fs.file q := by
  simp only [openFile]
  split
  · next h =>
      show (fs.create p).file q = fs.file q
      cases hq : fs.dir q with
      | none => simp [file, create, hq, Function.update_of_ne hqp]
      | some j =>
          have hj : j ≠ fs.nextIno := Nat.ne_of_lt (fs.dir_lt q j hq)
          simp [file, create, hq, Function.update_of_ne hqp, Function.update_of_ne hj]
  · next i h =>
      split
      · show (fs.setInode i .new).file q = fs.file q
        apply setInode_file_ne
        intro hq
        exact hqp (fs.dir_inj q p i hq h)
      · rfl

/-- A file opened with `O_TRUNC` or `O_APPEND` is written at its end. -/
theorem openFile_openAt {trunc append : Bool} (h : trunc = true ∨ append = true) :
    (fs.openFile p trunc append).2.OpenAt (fs.openFile p trunc append).1 p := by
  simp only [openFile]
  split
  · next hp => exact ⟨⟨fs.nextIno, 0, append⟩, by simp [newHandle, create],
      by simp [newHandle, create], by simp [newHandle, create]⟩
  · next i hp =>
      cases trunc with
      | true => exact ⟨⟨i, 0, append⟩, by simp [newHandle, setInode],
          by simp [newHandle, setInode, hp], by simp [newHandle, setInode]⟩
      | false => exact ⟨⟨i, 0, append⟩, by simp [newHandle], by simp [newHandle, hp],
          .inl (by simpa using h)⟩

theorem openFile_openTo (trunc append : Bool) :
    ∃ hd, (fs.openFile p trunc append).2.OpenTo fs.nextFd hd p ∧ hd.append = append := by
  simp only [openFile]
  split
  · exact ⟨⟨fs.nextIno, 0, append⟩, ⟨by simp [newHandle, create], by simp [newHandle, create]⟩, rfl⟩
  · next i hp =>
      refine ⟨⟨i, 0, append⟩, ?_, rfl⟩
      cases trunc with
      | true => exact ⟨by simp [newHandle, setInode], by simp [newHandle, setInode, hp]⟩
      | false => exact ⟨by simp [newHandle], by simp [newHandle, hp]⟩

theorem OpenTo.openFile_ne (h : fs.OpenTo fd hd q) (trunc append : Bool) (hqp : q ≠ p) :
    (fs.openFile p trunc append).2.OpenTo fd hd q := by
  obtain ⟨hfd, hdir⟩ := h
  have hne : fd ≠ fs.nextFd := Nat.ne_of_lt (fs.handle_lt fd hd hfd)
  simp only [openFile]
  split
  · exact ⟨by simp [newHandle, create, Function.update_of_ne hne, hfd],
      by simp [newHandle, create, Function.update_of_ne hqp, hdir]⟩
  · split
    · exact ⟨by simp [newHandle, setInode, Function.update_of_ne hne, hfd], hdir⟩
    · exact ⟨by simp [newHandle, Function.update_of_ne hne, hfd], hdir⟩

theorem openFile_handle_ne (trunc append : Bool) (hne : fd ≠ fs.nextFd) :
    (fs.openFile p trunc append).2.handle fd = fs.handle fd := by
  simp only [openFile]
  split
  · simp [newHandle, create, Function.update_of_ne hne]
  · split <;> simp [newHandle, setInode, Function.update_of_ne hne]

/-- Opening one file opens no old descriptor on another. -/
theorem openFile_openAt_iff {trunc append : Bool} (hfd : fd < fs.nextFd) (hqp : q ≠ p) :
    (fs.openFile p trunc append).2.OpenAt fd q ↔ fs.OpenAt fd q := by
  have hne : fd ≠ fs.nextFd := Nat.ne_of_lt hfd
  rw [openAt_iff, openAt_iff]
  constructor
  · rintro ⟨hd, f, hto, hf, hend⟩
    refine ⟨hd, f, ?_, (openFile_file_ne trunc append hqp).symm.trans hf, hend⟩
    simp only [openFile] at hto
    split at hto
    · simpa [OpenTo, newHandle, create, Function.update_of_ne hne, Function.update_of_ne hqp]
        using hto
    · split at hto
      · simpa [OpenTo, newHandle, setInode, Function.update_of_ne hne] using hto
      · simpa [OpenTo, newHandle, Function.update_of_ne hne] using hto
  · rintro ⟨hd, f, hto, hf, hend⟩
    exact ⟨hd, f, hto.openFile_ne trunc append hqp,
      (openFile_file_ne trunc append hqp).trans hf, hend⟩

/-! ### `unlink` and `rename` -/

@[simp] theorem unlink_file_self (fs : Fs P D) (p : P) : (fs.unlink p).file p = none := by
  simp [file, unlink]

theorem unlink_file_ne (hqp : q ≠ p) : (fs.unlink p).file q = fs.file q := by
  simp [file, unlink, Function.update_of_ne hqp]

theorem OpenAt.unlink_ne (h : fs.OpenAt fd q) (hqp : q ≠ p) : (fs.unlink p).OpenAt fd q := by
  obtain ⟨hd, hfd, hdir, hend⟩ := h
  exact ⟨hd, hfd, by simp [unlink, Function.update_of_ne hqp, hdir], hend⟩

theorem OpenTo.unlink_ne (h : fs.OpenTo fd hd q) (hqp : q ≠ p) : (fs.unlink p).OpenTo fd hd q :=
  ⟨h.1, by simp [unlink, Function.update_of_ne hqp, h.2]⟩

theorem unlink_data (fs : Fs P D) (p q : P) :
    (fs.unlink p).data q = if q = p then none else fs.data q := by
  unfold data
  split
  · next h =>
      subst h
      rw [unlink_file_self]
      rfl
  · next h => rw [unlink_file_ne h]

theorem unlink_openAt_iff : (fs.unlink p).OpenAt fd q ↔ q ≠ p ∧ fs.OpenAt fd q := by
  constructor
  · rintro ⟨hd, hfd, hdir, hend⟩
    have hqp : q ≠ p := by
      rintro rfl
      simp [unlink] at hdir
    exact ⟨hqp, hd, hfd, by simpa [unlink, Function.update_of_ne hqp] using hdir, hend⟩
  · rintro ⟨hqp, h⟩
    exact h.unlink_ne hqp

omit [DecidableEq P] in
/-- A descriptor is open on one file. -/
theorem OpenAt.unique (h : fs.OpenAt fd p) (h' : fs.OpenAt fd q) : p = q := by
  obtain ⟨hd, hfd, hdir, -⟩ := h
  obtain ⟨hd', hfd', hdir', -⟩ := h'
  obtain rfl : hd = hd' := Option.some.inj (hfd.symm.trans hfd')
  exact fs.dir_inj p q hd.ino hdir hdir'

theorem rename_file_to (h : fs.file p = some f) : (fs.rename p q).file q = some f := by
  obtain ⟨i, hdir, rfl⟩ := file_eq_some.mp h
  unfold rename
  split
  · next h' => simp [hdir] at h'
  · next j h' =>
      obtain rfl : i = j := by simpa [hdir] using h'
      simp [file, link, unlink]

theorem rename_file_from (hpq : p ≠ q) : (fs.rename p q).file p = none := by
  unfold rename
  split
  · next h => simp [file, h]
  · next i h => simp [file, link, unlink, Function.update_of_ne hpq]

theorem rename_file_ne (hp : r ≠ p) (hq : r ≠ q) : (fs.rename p q).file r = fs.file r := by
  unfold rename
  split
  · rfl
  · next i h => simp [file, link, unlink, Function.update_of_ne hp, Function.update_of_ne hq]

/-- A descriptor follows its file to the new name. -/
theorem OpenAt.rename (h : fs.OpenAt fd p) : (fs.rename p q).OpenAt fd q := by
  obtain ⟨hd, hfd, hdir, hend⟩ := h
  unfold Fs.rename
  split
  · next h' => simp [hdir] at h'
  · next j h' =>
      obtain rfl : hd.ino = j := by simpa [hdir] using h'
      exact ⟨hd, hfd, by simp [link], hend⟩

theorem OpenTo.rename_ne (h : fs.OpenTo fd hd r) (hp : r ≠ p) (hq : r ≠ q) :
    (fs.rename p q).OpenTo fd hd r := by
  unfold Fs.rename
  split
  · exact h
  · refine ⟨h.1, ?_⟩
    simp [link, unlink, Function.update_of_ne hp, Function.update_of_ne hq, h.2]

end Effects

/-! ## Descriptors and their inodes

A descriptor stays on its inode, whatever happens to the name. -/

section OpenOn

variable {fs : Fs P D} {fd : Nat} {hd : Handle} {f : Inode D} {p : P}

/-- `fd` is open on the inode `f`. -/
def OpenOn (fs : Fs P D) (fd : Nat) (hd : Handle) (f : Inode D) : Prop :=
  fs.handle fd = some hd ∧ fs.inode hd.ino = f

theorem OpenOn.write [Inhabited D] (h : fs.OpenOn fd hd f) (xs : List D) :
    (fs.write fd xs).OpenOn fd { hd with off := hd.writeOff f + xs.length }
      (f.storeAt (hd.writeOff f) xs) := by
  obtain ⟨hfd, rfl⟩ := h
  unfold Fs.write
  split
  · next h' => simp [hfd] at h'
  · next hd' h' =>
      obtain rfl : hd = hd' := by simpa [hfd] using h'
      exact ⟨by simp [setOff, Handle.writeOff], by simp [setOff, setInode, Handle.writeOff]⟩

theorem OpenOn.ftruncate [Inhabited D] (h : fs.OpenOn fd hd f) (n : Nat) :
    (fs.ftruncate fd n).OpenOn fd hd (f.resize n) := by
  obtain ⟨hfd, rfl⟩ := h
  simp only [Fs.ftruncate, hfd]
  exact ⟨hfd, by simp [setInode]⟩

/-- An fsync, of this or another descriptor, changes no contents. -/
theorem OpenOn.fsync (h : fs.OpenOn fd hd f) (fd' : Nat) :
    ∃ f', (fs.fsync fd').OpenOn fd hd f' ∧ f'.data = f.data := by
  obtain ⟨hfd, rfl⟩ := h
  unfold Fs.fsync
  split
  · exact ⟨_, ⟨hfd, rfl⟩, rfl⟩
  · next hd' _ =>
      refine ⟨_, ⟨hfd, rfl⟩, ?_⟩
      by_cases hino : hd.ino = hd'.ino
      · simp [setInode, hino]
      · simp [setInode, Function.update_of_ne hino]

theorem OpenOn.close_ne (h : fs.OpenOn fd hd f) {fd' : Nat} (hne : fd ≠ fd') :
    (fs.close fd').OpenOn fd hd f := by
  obtain ⟨hfd, hf⟩ := h
  exact ⟨by simp [close, Function.update_of_ne hne, hfd], hf⟩

/-- Opening a file leaves the contents of the others alone. -/
theorem OpenOn.openFile_ne [DecidableEq P] (h : fs.OpenOn fd hd f) (trunc append : Bool)
    (hp : fs.dir p ≠ some hd.ino) : (fs.openFile p trunc append).2.OpenOn fd hd f := by
  obtain ⟨hfd, rfl⟩ := h
  have hne : fd ≠ fs.nextFd := Nat.ne_of_lt (fs.handle_lt fd hd hfd)
  have hnew : hd.ino ≠ fs.nextIno := Nat.ne_of_lt (fs.handle_ino_lt fd hd hfd)
  simp only [openFile]
  split
  · exact ⟨by simp [newHandle, create, Function.update_of_ne hne, hfd],
      by simp [newHandle, create, Function.update_of_ne hnew]⟩
  · next i hdir =>
      have hino : hd.ino ≠ i := by
        rintro rfl
        exact hp hdir
      split
      · exact ⟨by simp [newHandle, setInode, Function.update_of_ne hne, hfd],
          by simp [newHandle, setInode, Function.update_of_ne hino]⟩
      · exact ⟨by simp [newHandle, Function.update_of_ne hne, hfd], rfl⟩

/-- Opening a file with `O_TRUNC` empties it for whoever has it open. -/
theorem OpenOn.openFile_trunc [DecidableEq P] (h : fs.OpenOn fd hd f) (append : Bool)
    (hp : fs.dir p = some hd.ino) : (fs.openFile p true append).2.OpenOn fd hd .new := by
  have hne : fd ≠ fs.nextFd := Nat.ne_of_lt (fs.handle_lt fd hd h.1)
  simp only [openFile]
  split
  · next hdir => simp [hp] at hdir
  · next i hdir =>
      obtain rfl : i = hd.ino := Option.some.inj (hdir.symm.trans hp)
      exact ⟨by simp [newHandle, setInode, Function.update_of_ne hne, h.1],
        by simp [newHandle, setInode]⟩

theorem OpenAt.openOn (h : fs.OpenAt fd p) (hf : fs.file p = some f) :
    ∃ hd, fs.OpenOn fd hd f ∧ hd.writeOff f = f.data.length := by
  obtain ⟨hd, hfd, hdir, hend⟩ := h
  have hino : fs.inode hd.ino = f := by simpa [file, hdir] using hf
  refine ⟨hd, ⟨hfd, hino⟩, ?_⟩
  unfold Handle.writeOff
  split
  · rfl
  · next hna => simpa [hna, hino] using hend

end OpenOn

/-! ## Numbers of descriptors -/

section Numbers

variable (fs : Fs P D) (p q : P) (fd n : Nat)

/-- Reads and writes do not change how a descriptor was opened. -/
theorem write_append [Inhabited D] (fs : Fs P D) (fd fd' : Nat) (xs : List D) :
    ((fs.write fd xs).handle fd').map (·.append) = (fs.handle fd').map (·.append) := by
  unfold Fs.write
  split
  · rfl
  · next hd h =>
      by_cases hne : fd' = fd
      · subst hne
        simp [setOff, h]
      · simp [setOff, setInode, Function.update_of_ne hne]

@[simp] theorem ftruncate_handle [Inhabited D] (fs : Fs P D) (fd n : Nat) :
    (fs.ftruncate fd n).handle = fs.handle := by
  unfold Fs.ftruncate
  split <;> rfl

@[simp] theorem fsync_handle (fs : Fs P D) (fd : Nat) : (fs.fsync fd).handle = fs.handle := by
  unfold Fs.fsync
  split <;> rfl

@[simp] theorem write_nextFd [Inhabited D] (xs : List D) : (fs.write fd xs).nextFd = fs.nextFd := by
  unfold write
  split <;> rfl

@[simp] theorem ftruncate_nextFd [Inhabited D] : (fs.ftruncate fd n).nextFd = fs.nextFd := by
  unfold ftruncate
  split <;> rfl

@[simp] theorem fsync_nextFd : (fs.fsync fd).nextFd = fs.nextFd := by
  unfold fsync
  split <;> rfl

@[simp] theorem close_nextFd : (fs.close fd).nextFd = fs.nextFd := rfl

variable [DecidableEq P]

@[simp] theorem unlink_nextFd : (fs.unlink p).nextFd = fs.nextFd := rfl

@[simp] theorem rename_nextFd : (fs.rename p q).nextFd = fs.nextFd := by
  unfold rename
  split <;> rfl

@[simp] theorem openFile_nextFd (trunc append : Bool) :
    (fs.openFile p trunc append).2.nextFd = fs.nextFd + 1 := by
  unfold openFile
  dsimp only
  split
  · rfl
  · split <;> rfl

end Numbers

/-! ## What the operations leave alone -/

/-- The same contents, with at least as much of them on stable storage. -/
def SameData : Option (Inode D) → Option (Inode D) → Prop
  | none, none => True
  | some f, some f' => f'.data = f.data ∧ f.synced ≤ f'.synced
  | _, _ => False

theorem SameData.refl : ∀ f : Option (Inode D), SameData f f
  | none => trivial
  | some _ => ⟨rfl, Nat.le_refl _⟩

theorem SameData.trans : ∀ {f g h : Option (Inode D)}, SameData f g → SameData g h → SameData f h
  | none, none, none, _, _ => trivial
  | some _, some _, some _, h, h' => ⟨h'.1.trans h.1, Nat.le_trans h.2 h'.2⟩

theorem SameData.map_data : ∀ {f g : Option (Inode D)}, SameData f g →
    g.map (·.data) = f.map (·.data)
  | none, none, _ => rfl
  | some _, some _, h => congrArg some h.1

theorem SameData.exists_some {f : Inode D} {g : Option (Inode D)} (h : SameData (some f) g) :
    ∃ f', g = some f' ∧ f'.data = f.data ∧ f.synced ≤ f'.synced := by
  cases g with
  | none => exact h.elim
  | some f' => exact ⟨f', rfl, h⟩

/-- Files called otherwise than in `S` keep their contents, and descriptors other than those in
`C` stay where they are in these files. -/
structure Keeps (S : Set P) (C : Set Nat) (fs fs' : Fs P D) : Prop where
  file : ∀ p, p ∉ S → SameData (fs.file p) (fs'.file p)
  openTo : ∀ p, p ∉ S → ∀ fd, fd ∉ C → ∀ hd, fs.OpenTo fd hd p → fs'.OpenTo fd hd p

namespace Keeps

variable {S S' : Set P} {C C' : Set Nat} {fs fs' fs'' : Fs P D} {p q : P} {fd : Nat} {hd : Handle}
  {xs : List D}

theorem refl (fs : Fs P D) : Keeps S C fs fs := ⟨fun _ _ => .refl _, fun _ _ _ _ _ h => h⟩

theorem trans (h : Keeps S C fs fs') (h' : Keeps S C fs' fs'') : Keeps S C fs fs'' :=
  ⟨fun p hp => (h.file p hp).trans (h'.file p hp),
    fun p hp fd hfd hd ho => h'.openTo p hp fd hfd hd (h.openTo p hp fd hfd hd ho)⟩

theorem mono (h : Keeps S C fs fs') (hS : S ⊆ S') (hC : C ⊆ C') : Keeps S' C' fs fs' :=
  ⟨fun p hp => h.file p fun hm => hp (hS hm),
    fun p hp fd hfd => h.openTo p (fun hm => hp (hS hm)) fd fun hm => hfd (hC hm)⟩

theorem data (h : Keeps S C fs fs') (hp : p ∉ S) : fs'.data p = fs.data p :=
  (h.file p hp).map_data

theorem isSome (h : Keeps S C fs fs') (hp : p ∉ S) (hf : (fs.file p).isSome) :
    (fs'.file p).isSome := by
  obtain ⟨f, hf⟩ := Option.isSome_iff_exists.mp hf
  have hsame := h.file p hp
  rw [hf] at hsame
  obtain ⟨f', hf', -⟩ := hsame.exists_some
  rw [hf']
  rfl

/-- A descriptor at the end of a file stays there. -/
theorem openAt (h : Keeps S C fs fs') (p : P) (hp : p ∉ S) (fd : Nat) (hfd : fd ∉ C)
    (ho : fs.OpenAt fd p) : fs'.OpenAt fd p := by
  obtain ⟨hd, f, hto, hf, hend⟩ := openAt_iff.mp ho
  have hsame := h.file p hp
  rw [hf] at hsame
  obtain ⟨f', hf', hdata, -⟩ := hsame.exists_some
  exact openAt_iff.mpr ⟨hd, f', h.openTo p hp fd hfd hd hto, hf', hdata ▸ hend⟩

theorem of_file_eq (h : ∀ p, p ∉ S → fs'.file p = fs.file p)
    (ho : ∀ p, p ∉ S → ∀ fd, fd ∉ C → ∀ hd, fs.OpenTo fd hd p → fs'.OpenTo fd hd p) :
    Keeps S C fs fs' :=
  ⟨fun p hp => h p hp ▸ .refl _, ho⟩

theorem fsync (fs : Fs P D) (fd : Nat) : Keeps S C fs (fs.fsync fd) := by
  refine ⟨fun p _ => ?_, fun p _ fd' _ hd ho => ho.fsync fd⟩
  obtain h | h := fs.fsync_file fd p
  · rw [h]
    exact .refl _
  · rw [h]
    cases fs.file p with
    | none => trivial
    | some f => exact ⟨rfl, f.synced_le⟩

theorem close (fs : Fs P D) (hfd : fd ∈ C) : Keeps S C fs (fs.close fd) :=
  of_file_eq (fun _ _ => rfl) fun _ _ _ hfd' _ ho => ho.close_ne fun heq => hfd' (heq ▸ hfd)

theorem write [Inhabited D] (ho : fs.OpenTo fd hd p) (hp : p ∈ S) :
    Keeps S C fs (fs.write fd xs) := by
  refine of_file_eq (fun q hq => ho.write_file_ne fun heq => hq (heq ▸ hp)) ?_
  intro q hq fd' _ hd' ho'
  exact ho'.write_ne ho fun heq => hq (heq ▸ hp)

theorem ftruncate [Inhabited D] {n : Nat} (ho : fs.OpenTo fd hd p) (hp : p ∈ S) :
    Keeps S C fs (fs.ftruncate fd n) := by
  refine of_file_eq (fun q hq => ho.ftruncate_file_ne fun heq => hq (heq ▸ hp)) ?_
  intro q hq fd' _ hd' ho'
  simp only [Fs.ftruncate, ho.1]
  exact ⟨ho'.1, ho'.2⟩

variable [DecidableEq P]

theorem openFile (fs : Fs P D) (trunc append : Bool) (hp : p ∈ S) :
    Keeps S C fs (fs.openFile p trunc append).2 :=
  of_file_eq (fun _ hq => openFile_file_ne trunc append fun heq => hq (heq ▸ hp))
    fun _ hq _ _ _ ho => ho.openFile_ne trunc append fun heq => hq (heq ▸ hp)

theorem unlink (fs : Fs P D) (hp : p ∈ S) : Keeps S C fs (fs.unlink p) :=
  of_file_eq (fun _ hq => unlink_file_ne fun heq => hq (heq ▸ hp))
    fun _ hq _ _ _ ho => ho.unlink_ne fun heq => hq (heq ▸ hp)

theorem rename (fs : Fs P D) (hp : p ∈ S) (hq : q ∈ S) : Keeps S C fs (fs.rename p q) :=
  of_file_eq (fun _ hr => rename_file_ne (fun heq => hr (heq ▸ hp)) fun heq => hr (heq ▸ hq))
    fun _ hr _ _ _ ho => ho.rename_ne (fun heq => hr (heq ▸ hp)) fun heq => hr (heq ▸ hq)

end Keeps

end Fs

end WasiPorts.Posix
