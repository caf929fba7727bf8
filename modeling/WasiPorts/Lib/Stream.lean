import Mathlib.Data.List.Basic

/-!
# Files that are read item by item

A reader takes one item from the front of a file. `Reader.items` reads until the file is at its end, or until an
item cannot be read.

* `items_append` — a file that was read to its end can be continued.
* `items_take` — a file that is cut behind an item is read up to this item.
* `items_flatMap_take` — of printed items that are cut anywhere, those in front of the cut are read.
-/

namespace WasiPorts.Stream

variable {D R T : Type*}

/-! ## Pieces of an item -/

section Pieces

variable {V : Type*} {f : List D → Except T (V × List D)}

/-- What is read does not depend on what follows it. -/
def Local (f : List D → Except T (V × List D)) : Prop :=
  ∀ ⦃xs v rest⦄, f xs = .ok (v, rest) → ∃ used, xs = used ++ rest ∧ ∀ ys, f (used ++ ys) = .ok (v, ys)

end Pieces

/-! ## Reading a file -/

/-- Reading one item: the item and how many units it takes, or why there is none. -/
structure Reader (D R T : Type*) where
  read : List D → Except T (R × Nat)
  /-- The answer at the end of the file, and only there. -/
  eof : T
  read_nil : read [] = .error eof
  eq_nil : ∀ {xs}, read xs = .error eof → xs = []
  pos : ∀ {xs r k}, read xs = .ok (r, k) → 0 < k
  le : ∀ {xs r k}, read xs = .ok (r, k) → k ≤ xs.length
  /-- The units behind an item do not matter. -/
  read_take : ∀ {xs r k}, read xs = .ok (r, k) → ∀ ys, read (xs.take k ++ ys) = .ok (r, k)

namespace Reader

variable {rd : Reader D R T} {xs : List D} {r : R} {k : Nat}

/-- At most `n` items, with the offsets behind them, and where reading stops; `pos` is the offset of `xs`. -/
def loop (rd : Reader D R T) : Nat → Nat → List D → List (R × Nat) × T
  | 0, _, _ => ([], rd.eof)
  | n + 1, pos, xs =>
    match rd.read xs with
    | .error t => ([], t)
    | .ok (r, k) =>
      let rest := rd.loop n (pos + k) (xs.drop k)
      ((r, pos + k) :: rest.1, rest.2)

/-- All items. Each of them takes at least one unit. -/
def items (rd : Reader D R T) (pos : Nat) (xs : List D) : List (R × Nat) × T := rd.loop xs.length pos xs

/-- More rounds than units do not matter. -/
theorem loop_eq {n m : Nat} (pos : Nat) (hn : xs.length ≤ n) (hm : xs.length ≤ m) :
    rd.loop n pos xs = rd.loop m pos xs := by
  induction n generalizing m pos xs with
  | zero =>
      obtain rfl := List.length_eq_zero_iff.mp (Nat.le_zero.mp hn)
      cases m with
      | zero => rfl
      | succ m => rw [loop, loop, rd.read_nil]
  | succ n ih =>
      cases m with
      | zero =>
          obtain rfl := List.length_eq_zero_iff.mp (Nat.le_zero.mp hm)
          rw [loop, loop, rd.read_nil]
      | succ m =>
          rw [loop, loop]
          cases hread : rd.read xs with
          | error t => rfl
          | ok v =>
              have hpos := rd.pos hread
              have hlen : (xs.drop v.2).length = xs.length - v.2 := List.length_drop
              dsimp only
              rw [@ih (xs.drop v.2) m _ (by omega) (by omega)]

@[simp] theorem items_nil (pos : Nat) : rd.items pos [] = ([], rd.eof) := rfl

theorem items_error {t : T} (pos : Nat) (h : rd.read xs = .error t) : rd.items pos xs = ([], t) := by
  cases xs with
  | nil =>
      rw [rd.read_nil] at h
      rw [items_nil, Except.error.inj h]
  | cons x xs => rw [items, List.length_cons, loop, h]

theorem items_ok (pos : Nat) (h : rd.read xs = .ok (r, k)) :
    rd.items pos xs =
      ((r, pos + k) :: (rd.items (pos + k) (xs.drop k)).1, (rd.items (pos + k) (xs.drop k)).2) := by
  have hpos := rd.pos h
  have hle := rd.le h
  obtain ⟨n, hn⟩ : ∃ n, xs.length = n + 1 := Nat.exists_eq_add_one.mpr (by omega)
  have hlen : (xs.drop k).length = xs.length - k := List.length_drop
  rw [items, hn, loop, h, items]
  dsimp only
  rw [@loop_eq _ _ _ rd (xs.drop k) n _ _ (by omega) (Nat.le_refl _)]

/-- The first item, where it is followed by something else. -/
theorem items_read (pos : Nat) (h : rd.read xs = .ok (r, k)) (ys : List D) :
    rd.items pos (xs.take k ++ ys) = ((r, pos + k) :: (rd.items (pos + k) ys).1, (rd.items (pos + k) ys).2) := by
  have hlen : (xs.take k).length = k := List.length_take_of_le (rd.le h)
  rw [items_ok pos (rd.read_take h ys), List.drop_left' hlen]

/-- **A file that was read to its end** can be continued. -/
theorem items_append {pos : Nat} (h : (rd.items pos xs).2 = rd.eof) (ys : List D) :
    rd.items pos (xs ++ ys) =
      ((rd.items pos xs).1 ++ (rd.items (pos + xs.length) ys).1, (rd.items (pos + xs.length) ys).2) := by
  induction hn : xs.length using Nat.strongRecOn generalizing pos xs with
  | ind n ih =>
    subst hn
    cases hread : rd.read xs with
    | error t =>
        rw [items_error pos hread] at h
        obtain rfl := rd.eq_nil (hread.trans (congrArg Except.error h))
        rfl
    | ok v =>
        obtain ⟨r, k⟩ := v
        have hpos := rd.pos hread
        have hle := rd.le hread
        have hlen : (xs.drop k).length = xs.length - k := List.length_drop
        rw [items_ok pos hread] at h
        have hrest := @ih (xs.drop k).length (by omega) (xs.drop k) (pos + k) h rfl
        have hshift : pos + k + (xs.drop k).length = pos + xs.length := by omega
        nth_rewrite 1 [← List.take_append_drop k xs]
        rw [List.append_assoc, items_read pos hread, items_ok pos hread, hrest, hshift]
        rfl

/-- **A file that is cut behind an item** is read up to this item. -/
theorem items_take {pos e : Nat} {pre suf : List (R × Nat)} (h : (rd.items pos xs).1 = pre ++ (r, e) :: suf) :
    pos < e ∧ rd.items pos (xs.take (e - pos)) = (pre ++ [(r, e)], rd.eof) := by
  induction pre generalizing pos xs with
  | nil =>
      cases hread : rd.read xs with
      | error t =>
          rw [items_error pos hread] at h
          cases h
      | ok v =>
          have hpos := rd.pos hread
          rw [items_ok pos hread, List.nil_append] at h
          obtain ⟨hfirst, -⟩ := List.cons.inj h
          obtain ⟨rfl, rfl⟩ := Prod.mk.inj hfirst
          -- the item itself: it is read the same without what follows
          have hone := items_read pos hread []
          rw [List.append_nil, items_nil] at hone
          rw [Nat.add_sub_cancel_left]
          exact ⟨by omega, hone⟩
  | cons p pre ih =>
      cases hread : rd.read xs with
      | error t =>
          rw [items_error pos hread] at h
          cases h
      | ok v =>
          have hle := rd.le hread
          rw [items_ok pos hread, List.cons_append] at h
          obtain ⟨rfl, hrest⟩ := List.cons.inj h
          obtain ⟨hlt, heq⟩ := ih hrest
          -- an earlier item: the cut is in what follows it
          have htake : xs.take (e - pos) = xs.take v.2 ++ (xs.drop v.2).take (e - (pos + v.2)) := by
            rw [← List.take_add]
            congr 1
            omega
          rw [htake, items_read pos hread, heq]
          exact ⟨by omega, rfl⟩

end Reader

/-! ## Printed items -/

section Printed

variable {I : Type*} {rd : Reader D R T} {enc : I → List D} {val : I → R} {is : List I}

/-- What is printed as `enc i` is read as `val i`, whatever follows. -/
def Prints (rd : Reader D R T) (enc : I → List D) (val : I → R) (i : I) : Prop :=
  ∀ ys, rd.read (enc i ++ ys) = .ok (val i, (enc i).length)

/-- The items with the offsets behind them. -/
def ends (enc : I → List D) (val : I → R) (pos : Nat) : List I → List (R × Nat)
  | [] => []
  | i :: is => (val i, pos + (enc i).length) :: ends enc val (pos + (enc i).length) is

/-- The items that the first `n` units contain. -/
def complete (enc : I → List D) : List I → Nat → List I
  | [], _ => []
  | i :: is, n => if (enc i).length ≤ n then i :: complete enc is (n - (enc i).length) else []

/-- The item that a cut at `n` is inside of. -/
def cutItem (enc : I → List D) : List I → Nat → Option I
  | [], _ => none
  | i :: is, n =>
    if (enc i).length ≤ n then cutItem enc is (n - (enc i).length)
    else if n = 0 then none
    else some i

theorem Prints.pos {i : I} (h : Prints rd enc val i) : 0 < (enc i).length := rd.pos (h [])

@[simp] theorem map_ends (pos : Nat) (is : List I) : (ends enc val pos is).map (·.1) = is.map val := by
  induction is generalizing pos with
  | nil => rfl
  | cons i is ih => rw [ends, List.map_cons, ih, List.map_cons]

theorem complete_begins (is : List I) (n : Nat) : complete enc is n <+: is := by
  induction is generalizing n with
  | nil => exact List.nil_prefix
  | cons i is ih =>
      unfold complete
      split
      · exact (List.prefix_cons_inj i).mpr (ih _)
      · exact List.nil_prefix

theorem mem_of_cutItem {n : Nat} {i : I} (h : cutItem enc is n = some i) : i ∈ is := by
  induction is generalizing n with
  | nil => cases h
  | cons j is ih =>
      unfold cutItem at h
      split at h
      · exact List.mem_cons_of_mem j (ih h)
      split at h
      · cases h
      · obtain rfl := Option.some.inj h
        exact List.mem_cons_self

theorem lt_of_mem_ends {pos : Nat} {p : R × Nat} (hne : ∀ i ∈ is, 0 < (enc i).length)
    (h : p ∈ ends enc val pos is) : pos < p.2 := by
  induction is generalizing pos with
  | nil => cases h
  | cons i is ih =>
      have hpos := hne i List.mem_cons_self
      rcases List.mem_cons.mp h with rfl | h
      · exact Nat.lt_add_of_pos_right hpos
      · have hlt := ih (fun j hj => hne j (List.mem_cons_of_mem i hj)) h
        omega

/-- These are the items that end in the first `n` units. -/
theorem ends_complete (hne : ∀ i ∈ is, 0 < (enc i).length) (pos n : Nat) :
    ends enc val pos (complete enc is n) = (ends enc val pos is).filter (·.2 ≤ pos + n) := by
  induction is generalizing pos n with
  | nil => rfl
  | cons i is ih =>
      have hne' : ∀ j ∈ is, 0 < (enc j).length := fun j hj => hne j (List.mem_cons_of_mem i hj)
      unfold complete
      split
      · next hle =>
          have hshift : pos + n = pos + (enc i).length + (n - (enc i).length) := by omega
          rw [hshift, ends, ends, List.filter_cons_of_pos (by simp), ih hne']
      · next hlt =>
          -- nothing ends in front of the end of the first item
          symm
          rw [ends, ends, List.filter_eq_nil_iff]
          intro p hp
          have hlt' : pos + n < p.2 := by
            rcases List.mem_cons.mp hp with rfl | hp
            · exact Nat.add_lt_add_left (Nat.lt_of_not_le hlt) pos
            · have hend := lt_of_mem_ends hne' hp
              omega
          simpa using hlt'

/-- **Printed items that are cut anywhere.** The items in front of the cut are read; an item that was cut is answered
with `torn`. -/
theorem items_flatMap_take {torn : I → T} (h : ∀ i ∈ is, Prints rd enc val i)
    (htorn : ∀ i ∈ is, ∀ n, 0 < n → n < (enc i).length → rd.read ((enc i).take n) = .error (torn i)) (pos n : Nat) :
    rd.items pos ((is.flatMap enc).take n) =
      (ends enc val pos (complete enc is n), ((cutItem enc is n).map torn).getD rd.eof) := by
  induction is generalizing pos n with
  | nil =>
      rw [List.flatMap_nil, List.take_nil]
      rfl
  | cons i is ih =>
      have hrest := ih (fun j hj => h j (List.mem_cons_of_mem i hj))
        (fun j hj => htorn j (List.mem_cons_of_mem i hj))
      rw [List.flatMap_cons, complete, cutItem]
      split
      · next hle =>
          have hread := h i List.mem_cons_self ((is.flatMap enc).take (n - (enc i).length))
          rw [List.take_append, List.take_of_length_le hle, Reader.items_ok pos hread, List.drop_left, hrest]
          rfl
      · next hlt =>
          rw [List.take_append_of_le_length (by omega)]
          split
          · next hzero =>
              subst hzero
              rfl
          · next hpos =>
              have hcut := htorn i List.mem_cons_self n (by omega) (by omega)
              exact Reader.items_error pos hcut

end Printed

end WasiPorts.Stream
