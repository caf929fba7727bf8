import WasiPorts.Lib.Memory
import WasiPorts.Lib.Positional

/-!
# Reading a file

`ngx_read_file` in the WASI build: `pread` is called again until the buffer is full, the file ends or
an error other than `EINTR` comes up. Whatever pieces the host cuts the read into, the result is that
of one complete `pread` (`read_file_exact`).

`fuel` bounds the number of calls; `none` is a call of `ngx_read_file` that needs more.
-/

namespace WasiPorts.Nginx

open WasiPorts.Memory WasiPorts.Posix

/-! ## The code -/

/-- `ngx_file_t`, as far as reading and writing use it. -/
structure File where
  /-- What `fd` is open on. -/
  fd : HostedFile Byte
  offset : Int

/-- `NGX_ERROR`. -/
def ngxError : Int := -1

/-- The largest `ssize_t` of a target with 32-bit pointers. -/
def ssizeMax : Nat := 2147483647

/-- A `size_t` assigned to an `ssize_t`. -/
def toSsize (n : Nat) : Int := if n ≤ ssizeMax then n else n - 4294967296

/-- The bytes `xs` stored from the address `a` on. -/
def store (mem : Nat → Byte) (a : Nat) (xs : List Byte) : Nat → Byte :=
  scatter mem (List.range' a xs.length) xs

/-- The loop of `ngx_read_file`. -/
def readLoop (buf size offset : Nat) :
    Nat → Nat → (Nat → Byte) → HostedFile Byte →
      Option (Except Errno Nat × (Nat → Byte) × HostedFile Byte)
  | 0, _, _, _ => none
  | fuel + 1, done, mem, fd =>
    if done < size then
      match fd.pread (size - done) (offset + done) with
      | (.error .eintr, fd) => readLoop buf size offset fuel done mem fd
      | (.error e, fd) => some (.error e, mem, fd)
      | (.ok [], fd) => some (.ok done, mem, fd)
      | (.ok (x :: xs), fd) =>
        readLoop buf size offset fuel (done + (x :: xs).length) (store mem (buf + done) (x :: xs)) fd
    else some (.ok done, mem, fd)

/-- `ngx_read_file`. -/
def ngxReadFile (fuel : Nat) (mem : Nat → Byte) (file : File) (buf size offset : Nat) :
    Option (Int × (Nat → Byte) × File) :=
  match readLoop buf size offset fuel 0 mem file.fd with
  | none => none
  | some (.error _, mem, fd) => some (ngxError, mem, { file with fd := fd })
  | some (.ok done, mem, fd) =>
    some (toSsize done, mem, ⟨fd, file.offset + toSsize done⟩)

/-! ## The buffer -/

theorem load_store (mem : Nat → Byte) (a : Nat) (xs : List Byte) :
    load (store mem a xs) a xs.length = xs := by
  have hread : ((List.range' a xs.length).take xs.length).map (store mem a xs) = xs :=
    map_scatter_take mem xs List.nodup_range' (by rw [List.length_range'])
  rwa [List.take_of_length_le (by rw [List.length_range'])] at hread

theorem store_of_lt (mem : Nat → Byte) {a i : Nat} (xs : List Byte) (h : i < a) :
    store mem a xs i = mem i := by
  apply scatter_of_notMem
  rw [List.mem_range'_1]
  omega

theorem store_of_ge (mem : Nat → Byte) {a i : Nat} (xs : List Byte) (h : a + xs.length ≤ i) :
    store mem a xs i = mem i := by
  apply scatter_of_notMem
  rw [List.mem_range'_1]
  omega

theorem load_store_before (mem : Nat → Byte) (buf n : Nat) (xs : List Byte) :
    load (store mem (buf + n) xs) buf n = load mem buf n := by
  apply List.map_congr_left
  intro i hi
  rw [List.mem_range'_1] at hi
  exact store_of_lt mem xs hi.2

/-! ## The loop -/

/-- The bytes a complete read gives. -/
def wanted (f : HostedFile Byte) (size offset : Nat) : List Byte :=
  (f.inode.data.drop offset).take size

/-- `done` bytes are in the buffer, and nothing else was touched. -/
structure Filled (mem₀ : Nat → Byte) (fd : HostedFile Byte) (buf size offset done : Nat)
    (mem : Nat → Byte) : Prop where
  le : done ≤ (wanted fd size offset).length
  bytes : load mem buf done = (wanted fd size offset).take done
  before : ∀ i < buf, mem i = mem₀ i
  after : ∀ i, buf + done ≤ i → mem i = mem₀ i

/-- Calls from `fd` to `fd'` of which none failed, but for interruptions. -/
def NoFailure (fd fd' : HostedFile Byte) : Prop :=
  ∀ i, fd.calls ≤ i → i < fd'.calls → ∀ e, fd.outcome i = .fail e → e = .eintr

/-- The same file, later. -/
structure Later (fd fd' : HostedFile Byte) : Prop where
  inode : fd'.inode = fd.inode
  outcome : fd'.outcome = fd.outcome
  calls : fd.calls ≤ fd'.calls

variable {fd fd' : HostedFile Byte} {buf size offset done fuel K : Nat} {mem mem' mem₀ : Nat → Byte}

/-- The file after one more call. -/
def called (fd : HostedFile Byte) : HostedFile Byte := { fd with calls := fd.calls + 1 }

theorem Later.refl (fd : HostedFile Byte) : Later fd fd := ⟨rfl, rfl, Nat.le_refl _⟩

theorem NoFailure.refl (fd : HostedFile Byte) : NoFailure fd fd :=
  fun _ hi hi' => absurd hi' (Nat.not_lt.mpr hi)

theorem Later.next (h : Later (called fd) fd') : Later fd fd' :=
  ⟨h.inode, h.outcome, Nat.le_of_succ_le h.calls⟩

theorem noFailure_next (h : Later (called fd) fd') :
    NoFailure fd fd' ↔
      (∀ e, fd.outcome fd.calls = .fail e → e = .eintr) ∧ NoFailure (called fd) fd' := by
  constructor
  · intro hno
    exact ⟨hno fd.calls (Nat.le_refl _) h.calls, fun i hi => hno i (Nat.le_of_succ_le hi)⟩
  · rintro ⟨hfirst, hrest⟩ i hi hi'
    rcases Nat.eq_or_lt_of_le hi with rfl | hlt
    · exact hfirst
    · exact hrest i hlt hi'

/-- One `pread` gives a piece of what is wanted, or fails. -/
theorem pread_cases (fd : HostedFile Byte) (size offset done : Nat) :
    (∃ n, fd.outcome fd.calls = .move n ∧ fd.pread (size - done) (offset + done) =
      (.ok (((wanted fd size offset).drop done).take (n + 1)), called fd)) ∨
    ∃ e, fd.outcome fd.calls = .fail e ∧
      fd.pread (size - done) (offset + done) = (.error e, called fd) := by
  unfold HostedFile.pread
  cases h : fd.outcome fd.calls with
  | move n =>
      refine .inl ⟨n, rfl, ?_⟩
      rw [wanted, List.drop_take, List.drop_drop]
      rfl
  | fail e => exact .inr ⟨e, rfl, rfl⟩

theorem Filled.start (mem : Nat → Byte) (fd : HostedFile Byte) (buf size offset : Nat) :
    Filled mem fd buf size offset 0 mem :=
  ⟨Nat.zero_le _, rfl, fun _ _ => rfl, fun _ _ => rfl⟩

/-- A further piece. -/
theorem Filled.next (h : Filled mem₀ fd buf size offset done mem) {xs : List Byte} {k : Nat}
    (hxs : ((wanted fd size offset).drop done).take k = xs) :
    Filled mem₀ fd buf size offset (done + xs.length) (store mem (buf + done) xs) := by
  have hlen : xs.length ≤ (wanted fd size offset).length - done := by
    rw [← hxs, List.length_take, List.length_drop]
    omega
  have hxs' : ((wanted fd size offset).drop done).take xs.length = xs := by
    rw [← hxs, List.length_take, List.take_eq_take_iff]
    omega
  have hle := h.le
  refine ⟨by omega, ?_, ?_, ?_⟩
  · rw [load_add, load_store_before, load_store, h.bytes, List.take_add, hxs']
  · intro i hi
    rw [store_of_lt mem xs (by omega), h.before i hi]
  · intro i hi
    rw [store_of_ge mem xs (by omega), h.after i (by omega)]

/-- What a run of the loop comes to. -/
def Ends (mem₀ : Nat → Byte) (fd : HostedFile Byte) (buf size offset : Nat) :
    Except Errno Nat × (Nat → Byte) × HostedFile Byte → Prop
  | (.ok n, mem', fd') => Later fd fd' ∧ NoFailure fd fd' ∧ n = (wanted fd size offset).length ∧
      Filled mem₀ fd buf size offset n mem'
  | (.error _, _, fd') => Later fd fd' ∧ ¬ NoFailure fd fd'

theorem Ends.next {r : Except Errno Nat × (Nat → Byte) × HostedFile Byte}
    (hok : ∀ e, fd.outcome fd.calls = .fail e → e = .eintr)
    (h : Ends mem₀ (called fd) buf size offset r) : Ends mem₀ fd buf size offset r := by
  obtain ⟨⟨e⟩ | ⟨n⟩, mem', fd'⟩ := r
  · obtain ⟨hlater, hfail⟩ := h
    exact ⟨hlater.next, fun hno => hfail ((noFailure_next hlater).mp hno).2⟩
  · obtain ⟨hlater, hno, hn, hfilled⟩ := h
    exact ⟨hlater.next, (noFailure_next hlater).mpr ⟨hok, hno⟩, hn,
      hfilled.le, hfilled.bytes, hfilled.before, hfilled.after⟩

theorem readLoop_spec {r : Except Errno Nat × (Nat → Byte) × HostedFile Byte}
    (h : Filled mem₀ fd buf size offset done mem)
    (heq : readLoop buf size offset fuel done mem fd = some r) :
    Ends mem₀ fd buf size offset r := by
  induction fuel generalizing done mem fd with
  | zero => cases heq
  | succ fuel ih =>
      have hnext : ∀ {done mem}, Filled mem₀ fd buf size offset done mem →
          (∀ e, fd.outcome fd.calls = .fail e → e = .eintr) →
          readLoop buf size offset fuel done mem (called fd) = some r →
          Ends mem₀ fd buf size offset r := by
        intro done mem hfilled hok hrest
        have hfilled' : Filled mem₀ (called fd) buf size offset done mem :=
          ⟨hfilled.le, hfilled.bytes, hfilled.before, hfilled.after⟩
        exact .next hok (ih hfilled' hrest)
      have hself := Later.refl (called fd)
      unfold readLoop at heq
      split at heq
      · rcases pread_cases fd size offset done with ⟨n, hout, hread⟩ | ⟨e, hout, hread⟩
        · rw [hread] at heq
          have hok : ∀ e, fd.outcome fd.calls = .fail e → e = .eintr := by
            rw [hout]
            nofun
          cases hxs : ((wanted fd size offset).drop done).take (n + 1) with
          | nil =>
              rw [hxs] at heq
              cases heq
              have hend : (wanted fd size offset).length ≤ done := by
                have hlen := congrArg List.length hxs
                rw [List.length_take, List.length_drop, List.length_nil] at hlen
                omega
              have hdone : done = (wanted fd size offset).length := Nat.le_antisymm h.le hend
              exact ⟨hself.next, (noFailure_next hself).mpr ⟨hok, .refl _⟩, hdone, h⟩
          | cons x xs =>
              rw [hxs] at heq
              exact hnext (h.next hxs) hok heq
        · rw [hread] at heq
          cases e with
          | eintr =>
              exact hnext h (fun e he => IoOutcome.fail.inj (he.symm.trans hout)) heq
          | eagain =>
              cases heq
              exact ⟨hself.next, fun hno => nomatch ((noFailure_next hself).mp hno).1 _ hout⟩
          | other code =>
              cases heq
              exact ⟨hself.next, fun hno => nomatch ((noFailure_next hself).mp hno).1 _ hout⟩
      · next hfull =>
          cases heq
          have hle := h.le
          have hlen : (wanted fd size offset).length ≤ size := List.length_take_le _ _
          exact ⟨.refl fd, .refl fd, by omega, h⟩

/-- The loop ends: every call moves a byte or is one of the interrupted ones. -/
theorem readLoop_isSome (hK : fd.FinitelyInterrupted K)
    (hfuel : size - done + (K - fd.calls) < fuel) :
    (readLoop buf size offset fuel done mem fd).isSome := by
  induction fuel generalizing done mem fd with
  | zero => exact absurd hfuel (Nat.not_lt_zero _)
  | succ fuel ih =>
      unfold readLoop
      split
      · rcases pread_cases fd size offset done with ⟨n, hout, hread⟩ | ⟨e, hout, hread⟩
        · rw [hread]
          cases hxs : ((wanted fd size offset).drop done).take (n + 1) with
          | nil => rfl
          | cons x xs =>
              refine ih (show (called fd).FinitelyInterrupted K from hK) ?_
              show size - (done + (xs.length + 1)) + (K - (fd.calls + 1)) < fuel
              omega
        · rw [hread]
          cases e with
          | eintr =>
              have hlt : fd.calls < K := by
                by_contra hge
                exact hK fd.calls (by omega) hout
              refine ih (show (called fd).FinitelyInterrupted K from hK) ?_
              show size - done + (K - (fd.calls + 1)) < fuel
              omega
          | eagain => rfl
          | other code => rfl
      · rfl

/-! ## The function -/

theorem wanted_length (fd : HostedFile Byte) (size offset : Nat) :
    (wanted fd size offset).length = min size (fd.inode.data.length - offset) := by
  rw [wanted, List.length_take, List.length_drop]

/-- **Reading is insensitive to chunking.** With finitely many interruptions the call returns. If no
`pread` fails otherwise, its result is that of one complete read. If one does, it is `NGX_ERROR`. -/
theorem read_file_exact (mem : Nat → Byte) (file : File) (buf size offset K : Nat)
    (hsize : size ≤ ssizeMax) (hK : file.fd.FinitelyInterrupted K) :
    ∃ fuel₀, ∀ fuel, fuel₀ ≤ fuel → ∃ n mem' file',
      ngxReadFile fuel mem file buf size offset = some (n, mem', file') ∧
      file'.fd.inode = file.fd.inode ∧
      (NoFailure file.fd file'.fd →
        n = (min size (file.fd.inode.data.length - offset) : Nat) ∧
        load mem' buf n.toNat = (file.fd.inode.data.drop offset).take size ∧
        (∀ i, i < buf ∨ buf + n.toNat ≤ i → mem' i = mem i) ∧
        file'.offset = file.offset + n) ∧
      (¬ NoFailure file.fd file'.fd → n = ngxError ∧ file'.offset = file.offset) := by
  refine ⟨size + K + 1, fun fuel hfuel => ?_⟩
  have hsome : (readLoop buf size offset fuel 0 mem file.fd).isSome :=
    readLoop_isSome hK (by omega)
  obtain ⟨r, hr⟩ := Option.isSome_iff_exists.mp hsome
  have hspec := readLoop_spec (.start mem file.fd buf size offset) hr
  unfold ngxReadFile
  rw [hr]
  obtain ⟨⟨e⟩ | ⟨n⟩, mem', fd'⟩ := r
  · obtain ⟨hlater, hfail⟩ := hspec
    exact ⟨_, _, _, rfl, hlater.inode, fun hno => absurd hno hfail, fun _ => ⟨rfl, rfl⟩⟩
  · obtain ⟨hlater, hno, hn, hfilled⟩ := hspec
    have hlen := wanted_length file.fd size offset
    have hfit : toSsize n = n := if_pos (by omega)
    refine ⟨_, _, _, rfl, hlater.inode, fun _ => ?_, fun hfail => absurd hno hfail⟩
    rw [hfit, Int.toNat_natCast]
    refine ⟨by rw [hn, hlen], ?_, ?_, rfl⟩
    · rw [hfilled.bytes, hn, List.take_length]
      rfl
    · rintro i (hi | hi)
      · exact hfilled.before i hi
      · exact hfilled.after i hi

/-- Five bytes, given one at a time after an interruption. -/
def sampleFile : File := ⟨⟨⟨[10, 20, 30, 40, 50], 0, Nat.zero_le _⟩,
  fun i => if i = 0 then .fail .eintr else .move 0, 0⟩, 0⟩

theorem sample_read_exact :
    ∃ fuel₀, ∀ fuel, fuel₀ ≤ fuel → ∃ n mem' file',
      ngxReadFile fuel (fun _ => 0) sampleFile 100 8 2 = some (n, mem', file') ∧
      file'.fd.inode = sampleFile.fd.inode ∧
      (NoFailure sampleFile.fd file'.fd →
        n = (min 8 (sampleFile.fd.inode.data.length - 2) : Nat) ∧
        load mem' 100 n.toNat = (sampleFile.fd.inode.data.drop 2).take 8 ∧
        (∀ i, i < 100 ∨ 100 + n.toNat ≤ i → mem' i = 0) ∧
        file'.offset = sampleFile.offset + n) ∧
      (¬ NoFailure sampleFile.fd file'.fd → n = ngxError ∧ file'.offset = sampleFile.offset) :=
  read_file_exact (fun _ => 0) sampleFile 100 8 2 1 (by decide) (by
    intro i hi
    have hne : i ≠ 0 := by omega
    simp [sampleFile, hne])

end WasiPorts.Nginx
