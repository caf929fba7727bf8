import WasiPorts.Redis.Ae.Basic

/-!
# What the event loop keeps

`maxfd` is the largest descriptor with a handler, and the descriptor sets hold the descriptors whose
masks say so (`LoopOk`). Every event keeps this. The descriptor -1 is the exception: where it was put
into a set, it stays there.
-/

namespace WasiPorts.Redis.Ae

open WasiPorts.Run

/-! ## Masks -/

/-- One bit of a mask. -/
structure IsBit (bit : Mask → Bool) : Prop where
  none : bit aeNone = false
  or : ∀ a b, bit (a.or b) = (bit a || bit b)
  without : ∀ a b, bit (a.without b) = (bit a && !bit b)

theorem isBit_readable : IsBit Mask.readable := ⟨rfl, fun _ _ => rfl, fun _ _ => rfl⟩

theorem isBit_writable : IsBit Mask.writable := ⟨rfl, fun _ _ => rfl, fun _ _ => rfl⟩

theorem IsBit.ne_none {bit : Mask → Bool} (h : IsBit bit) {mask : Mask} (hm : bit mask = true) :
    mask ≠ aeNone := by
  rintro rfl
  rw [h.none] at hm
  cases hm

theorem or_ne_none (a : Mask) {b : Mask} (h : b ≠ aeNone) : a.or b ≠ aeNone := by
  obtain ⟨r, w, x⟩ := b
  intro hor
  apply h
  simp only [Mask.or, aeNone, Mask.mk.injEq, Bool.or_eq_false_iff] at hor ⊢
  exact ⟨hor.1.2, hor.2.1.2, hor.2.2.2⟩

/-! ## Descriptor sets -/

variable {set : List Int} {fd a : Int} {el : EventLoop}

theorem mem_fdSet : a ∈ fdSet fd set ↔ a ∈ set ∨ a = fd := by
  unfold fdSet
  split
  · next hmem =>
      constructor
      · exact .inl
      · rintro (ha | rfl)
        · exact ha
        · exact hmem
  · rw [List.mem_append, List.mem_singleton]

theorem nodup_fdSet (h : set.Nodup) : (fdSet fd set).Nodup := by
  unfold fdSet
  split
  · exact h
  · next hnot =>
      refine List.nodup_append.mpr ⟨h, List.pairwise_singleton _ fd, ?_⟩
      intro x hx y hy hxy
      rw [List.mem_singleton] at hy
      exact hnot (hy ▸ hxy ▸ hx)

theorem mem_fdClr : a ∈ fdClr fd set ↔ a ∈ set ∧ a ≠ fd := by
  simp [fdClr]

/-- The set holds distinct descriptors whose masks have the bit, and perhaps -1. -/
structure SetOk (el : EventLoop) (bit : Mask → Bool) (set : List Int) : Prop where
  nodup : set.Nodup
  bits : ∀ fd ∈ set, fd = -1 ∨ 0 ≤ fd ∧ fd ≤ el.maxfd ∧ bit (el.events fd) = true

/-! ## The invariant -/

structure LoopOk (el : EventLoop) : Prop where
  least : -1 ≤ el.maxfd
  room : el.maxfd < el.setsize
  above : ∀ fd, el.maxfd < fd → fd < el.setsize → el.events fd = aeNone
  last : el.maxfd ≠ -1 → el.events el.maxfd ≠ aeNone
  rfds : SetOk el Mask.readable el.rfds
  wfds : SetOk el Mask.writable el.wfds
  accesses : ∀ x ∈ el.accesses, x.1 = -1 ∨ 0 ≤ x.1 ∧ x.1 < x.2

theorem LoopOk.le_maxfd (h : LoopOk el) (hfd : fd < el.setsize) (hmask : el.events fd ≠ aeNone) :
    fd ≤ el.maxfd := by
  by_contra hgt
  exact hmask (h.above fd (by omega) hfd)

theorem aeCreateEventLoop_ok (heap : Int → Mask) {setsize : Int} (h : 0 ≤ setsize) :
    LoopOk (aeCreateEventLoop heap setsize) := by
  refine ⟨Int.le_refl (-1), ?_, ?_, absurd rfl, ⟨List.nodup_nil, nofun⟩, ⟨List.nodup_nil, nofun⟩, nofun⟩
  · show -1 < setsize
    omega
  · intro fd hlt hfd
    have hlt' : -1 < fd := hlt
    exact if_pos ⟨by omega, hfd⟩

/-! ## Installing a handler -/

/-- The table with a handler for `fd`, and its set. -/
theorem SetOk.create {bit : Mask → Bool} {el' : EventLoop} {mask : Mask} (hbit : IsBit bit)
    (h : SetOk el bit set) (hfd : -1 ≤ fd) (hmax : el.maxfd ≤ el'.maxfd)
    (hle : fd ≤ el'.maxfd)
    (hev : ∀ i, el'.events i = if i = fd then (el.events fd).or mask else el.events i) :
    SetOk el' bit (if bit mask then fdSet fd set else set) := by
  have hold : ∀ i ∈ set, i = -1 ∨ 0 ≤ i ∧ i ≤ el'.maxfd ∧ bit (el'.events i) = true := by
    intro i hi
    obtain hneg | ⟨h0, hi', hb⟩ := h.bits i hi
    · exact .inl hneg
    · refine .inr ⟨h0, by omega, ?_⟩
      rw [hev]
      split
      · next heq =>
          subst heq
          rw [hbit.or, hb, Bool.true_or]
      · exact hb
  split
  · next hmask =>
      refine ⟨nodup_fdSet h.nodup, ?_⟩
      intro i hi
      obtain hi | rfl := mem_fdSet.mp hi
      · exact hold i hi
      · by_cases hneg : i = -1
        · exact .inl hneg
        · refine .inr ⟨by omega, hle, ?_⟩
          rw [hev, if_pos rfl, hbit.or, hmask, Bool.or_true]
  · exact ⟨h.nodup, hold⟩

/-- `aeCreateFileEvent`, field by field. -/
theorem aeCreateFileEvent_eq (mask : Mask) (h : fd < el.setsize) :
    aeCreateFileEvent el fd mask = some {
      maxfd := max el.maxfd fd
      setsize := el.setsize
      events := fun i => if i = fd then (el.events fd).or mask else el.events i
      rfds := if mask.readable then fdSet fd el.rfds else el.rfds
      wfds := if mask.writable then fdSet fd el.wfds else el.wfds
      accesses := el.accesses ++ [(fd, el.setsize)] } := by
  have hmax : (if el.maxfd < fd then fd else el.maxfd) = max el.maxfd fd := by
    split <;> omega
  unfold aeCreateFileEvent
  rw [if_neg (by omega), ← hmax]
  rfl

theorem aeCreateFileEvent_err {mask : Mask} (h : el.setsize ≤ fd) :
    aeCreateFileEvent el fd mask = none :=
  if_pos h

theorem aeCreateFileEvent_ok {mask : Mask} (h : LoopOk el) (hfd : -1 ≤ fd) (hmask : mask ≠ aeNone) :
    LoopOk ((aeCreateFileEvent el fd mask).getD el) := by
  by_cases hlt : fd < el.setsize
  · have hleast := h.least
    have hroom := h.room
    rw [aeCreateFileEvent_eq mask hlt, Option.getD_some]
    refine ⟨?_, ?_, ?_, ?_, ?_, ?_, ?_⟩
    · show -1 ≤ max el.maxfd fd
      omega
    · show max el.maxfd fd < el.setsize
      omega
    · intro i hi hi'
      have hi₁ : max el.maxfd fd < i := hi
      show (if i = fd then _ else el.events i) = aeNone
      rw [if_neg (by omega)]
      exact h.above i (by omega) hi'
    · intro hne
      have hne' : max el.maxfd fd ≠ -1 := hne
      show (if max el.maxfd fd = fd then _ else el.events (max el.maxfd fd)) ≠ aeNone
      split
      · exact or_ne_none _ hmask
      · next hnot =>
          have hmax : max el.maxfd fd = el.maxfd := by omega
          rw [hmax] at hne' ⊢
          exact h.last hne'
    · exact h.rfds.create isBit_readable hfd (Int.le_max_left _ _) (Int.le_max_right _ _) fun i => rfl
    · exact h.wfds.create isBit_writable hfd (Int.le_max_left _ _) (Int.le_max_right _ _) fun i => rfl
    · intro x hx
      obtain hx | hx := List.mem_append.mp hx
      · exact h.accesses x hx
      · rw [List.mem_singleton] at hx
        subst hx
        by_cases hneg : fd = -1
        · exact .inl hneg
        · exact .inr ⟨by show 0 ≤ fd; omega, hlt⟩
  · rw [aeCreateFileEvent_err (by omega)]
    exact h

/-! ## Removing a handler -/

theorem lastBelow_spec (events : Int → Mask) (n : Nat) :
    -1 ≤ lastBelow events n ∧ lastBelow events n < n ∧
      (lastBelow events n ≠ -1 → events (lastBelow events n) ≠ aeNone) ∧
      ∀ i, lastBelow events n < i → i < n → events i = aeNone := by
  induction n with
  | zero =>
      refine ⟨Int.le_refl (-1), by show (-1 : Int) < 0; decide, absurd rfl, ?_⟩
      intro i hi hi'
      have : (-1 : Int) < i := hi
      omega
  | succ n ih =>
      obtain ⟨hleast, hlt, hlast, habove⟩ := ih
      unfold lastBelow
      split
      · next hmask =>
          refine ⟨by omega, by omega, fun _ => hmask, ?_⟩
          intro i hi hi'
          omega
      · next hmask =>
          refine ⟨hleast, by omega, hlast, ?_⟩
          intro i hi hi'
          by_cases heq : i = n
          · rw [heq]
            exact not_not.mp hmask
          · exact habove i hi (by omega)

/-- The table without some handlers of `fd`, and its set. -/
theorem SetOk.delete {bit : Mask → Bool} {el' : EventLoop} {mask : Mask} (hbit : IsBit bit)
    (h : SetOk el bit set)
    (hmax : ∀ i, 0 ≤ i → i ≤ el.maxfd → el'.events i ≠ aeNone → i ≤ el'.maxfd)
    (hev : ∀ i, el'.events i = if i = fd then (el.events fd).without mask else el.events i) :
    SetOk el' bit (if bit mask then fdClr fd set else set) := by
  have hkept : ∀ i ∈ set, (i = fd → bit mask = false) →
      i = -1 ∨ 0 ≤ i ∧ i ≤ el'.maxfd ∧ bit (el'.events i) = true := by
    intro i hi hsame
    obtain hneg | ⟨h0, hi', hb⟩ := h.bits i hi
    · exact .inl hneg
    · have hb' : bit (el'.events i) = true := by
        rw [hev]
        split
        · next heq => rw [hbit.without, hsame heq, ← heq, hb, Bool.not_false, Bool.true_and]
        · exact hb
      exact .inr ⟨h0, hmax i h0 hi' (hbit.ne_none hb'), hb'⟩
  split
  · refine ⟨h.nodup.filter _, ?_⟩
    intro i hi
    obtain ⟨hi, hne⟩ := mem_fdClr.mp hi
    exact hkept i hi fun heq => absurd heq hne
  · next hmask => exact ⟨h.nodup, fun i hi => hkept i hi fun _ => Bool.eq_false_iff.mpr hmask⟩

/-- `aeDeleteFileEvent`, field by field. -/
theorem aeDeleteFileEvent_cases (el : EventLoop) (fd : Int) (mask : Mask) :
    aeDeleteFileEvent el fd mask = el ∨
      fd < el.setsize ∧ el.events fd ≠ aeNone ∧ ∃ mask' events',
        (events' = fun i => if i = fd then (el.events fd).without mask' else el.events i) ∧
        aeDeleteFileEvent el fd mask = {
          maxfd := if fd = el.maxfd ∧ events' fd = aeNone then lastBelow events' el.maxfd.toNat
            else el.maxfd
          setsize := el.setsize
          events := events'
          rfds := if mask'.readable then fdClr fd el.rfds else el.rfds
          wfds := if mask'.writable then fdClr fd el.wfds else el.wfds
          accesses := el.accesses } := by
  unfold aeDeleteFileEvent
  split
  · exact .inl rfl
  · split
    · exact .inl rfl
    · next hroom hmask =>
        generalize (if mask.writable then { mask with barrier := true } else mask) = mask'
        refine .inr ⟨by omega, hmask, mask', _, rfl, ?_⟩
        by_cases hlast : fd = el.maxfd ∧
            (if fd = fd then (el.events fd).without mask' else el.events fd) = aeNone
        · rw [if_pos hlast]
          exact if_pos hlast
        · rw [if_neg hlast]
          exact if_neg hlast

theorem aeDeleteFileEvent_ok (h : LoopOk el) (hfd : 0 ≤ fd) (mask : Mask) :
    LoopOk (aeDeleteFileEvent el fd mask) := by
  obtain heq | ⟨hlt, hmask, mask', events', hev, heq⟩ := aeDeleteFileEvent_cases el fd mask
  · rw [heq]
    exact h
  · have hle := h.le_maxfd hlt hmask
    have hroom := h.room
    have hother : ∀ i, i ≠ fd → events' i = el.events i := by
      intro i hi
      rw [hev]
      exact if_neg hi
    rw [heq]
    split
    · -- the search goes down from the largest descriptor
      next hlast =>
        obtain ⟨heqmax, hnone⟩ := hlast
        obtain ⟨hleast', hlt', hlast', habove'⟩ := lastBelow_spec events' el.maxfd.toNat
        have hbelow : lastBelow events' el.maxfd.toNat < el.maxfd := by omega
        have hmax : ∀ i, 0 ≤ i → i ≤ el.maxfd → events' i ≠ aeNone →
            i ≤ lastBelow events' el.maxfd.toNat := by
          intro i h0 hi hne
          by_contra hgt
          by_cases hi' : i = fd
          · exact hne (hi' ▸ hnone)
          · exact hne (habove' i (by omega) (by omega))
        refine ⟨hleast', by show lastBelow _ _ < el.setsize; omega, ?_, hlast', ?_, ?_, h.accesses⟩
        · intro i hi hi'
          have hi₁ : lastBelow events' el.maxfd.toNat < i := hi
          by_cases hgt : el.maxfd < i
          · exact (hother i (by omega)).trans (h.above i hgt hi')
          · by_cases hi₂ : i = fd
            · exact hi₂ ▸ hnone
            · exact habove' i hi₁ (by omega)
        · exact h.rfds.delete isBit_readable hmax fun i => by rw [hev]
        · exact h.wfds.delete isBit_writable hmax fun i => by rw [hev]
    · next hlast =>
        refine ⟨h.least, h.room, ?_, ?_, ?_, ?_, h.accesses⟩
        · intro i hi hi'
          have hi₁ : el.maxfd < i := hi
          exact (hother i (by omega)).trans (h.above i hi₁ hi')
        · intro hne
          have hne' : el.maxfd ≠ -1 := hne
          show events' el.maxfd ≠ aeNone
          by_cases heqmax : fd = el.maxfd
          · exact fun hnone => hlast ⟨heqmax, heqmax ▸ hnone⟩
          · rw [hother _ (Ne.symm heqmax)]
            exact h.last hne'
        · exact h.rfds.delete isBit_readable (fun i _ hi _ => hi) fun i => by rw [hev]
        · exact h.wfds.delete isBit_writable (fun i _ hi _ => hi) fun i => by rw [hev]

/-! ## Resizing -/

theorem aeResizeSetSize_cases {heap : Int → Mask} {n : Int} {el' : EventLoop}
    (h : aeResizeSetSize el heap n = some el') :
    el' = el ∨ el.maxfd < n ∧ n < fdSetsize ∧ el' = { el with
      setsize := n
      events := fun i =>
        if el.maxfd + 1 ≤ i ∧ i < n then aeNone
        else if 0 ≤ i ∧ i ≤ el.maxfd then el.events i
        else heap i } := by
  unfold aeResizeSetSize at h
  split at h
  · cases h
    exact .inl rfl
  · split at h
    · cases h
    · split at h
      · cases h
      · next hmax hapi =>
          cases h
          have hapi' : n < fdSetsize := by simpa [aeApiResize] using hapi
          exact .inr ⟨by omega, hapi', rfl⟩

theorem aeResizeSetSize_ok (h : LoopOk el) (heap : Int → Mask) (n : Int) :
    LoopOk ((aeResizeSetSize el heap n).getD el) := by
  cases hres : aeResizeSetSize el heap n with
  | none => exact h
  | some el' =>
      rw [Option.getD_some]
      obtain rfl | ⟨hlt, -, rfl⟩ := aeResizeSetSize_cases hres
      · exact h
      · have hleast := h.least
        -- the masks of the descriptors in use are kept
        have hkept : ∀ i, 0 ≤ i → i ≤ el.maxfd →
            (if el.maxfd + 1 ≤ i ∧ i < n then aeNone
              else if 0 ≤ i ∧ i ≤ el.maxfd then el.events i else heap i) = el.events i := by
          intro i h0 hi
          rw [if_neg (by omega), if_pos ⟨h0, hi⟩]
        refine ⟨h.least, hlt, ?_, ?_, ⟨h.rfds.nodup, ?_⟩, ⟨h.wfds.nodup, ?_⟩, h.accesses⟩
        · intro i hi hi'
          have hi₁ : el.maxfd < i := hi
          exact if_pos ⟨by omega, hi'⟩
        · intro hne
          have hne' : el.maxfd ≠ -1 := hne
          dsimp only
          rw [hkept el.maxfd (by omega) (Int.le_refl _)]
          exact h.last hne'
        · intro i hi
          obtain hneg | ⟨h0, hi', hb⟩ := h.rfds.bits i hi
          · exact .inl hneg
          · exact .inr ⟨h0, hi', by dsimp only; rw [hkept i h0 hi']; exact hb⟩
        · intro i hi
          obtain hneg | ⟨h0, hi', hb⟩ := h.wfds.bits i hi
          · exact .inl hneg
          · exact .inr ⟨h0, hi', by dsimp only; rw [hkept i h0 hi']; exact hb⟩

end WasiPorts.Redis.Ae
