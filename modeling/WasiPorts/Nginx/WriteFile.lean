import WasiPorts.Nginx.ReadFile
import WasiPorts.Nginx.WritevDelivery

/-!
# Writing a chain to a file

`ngx_write_chain_to_file` describes the chain by batches of at most 64 pieces of memory and writes one
batch after the other. The WASI build of `ngx_writev_file` writes the pieces of a batch one by one,
the native one by one `pwritev`; a batch of one piece goes to `ngx_write_file` in both.

Whatever the host does, a call that does not fail has written the bytes of the chain at the offset, as
one complete write would, and it fails only if a `pwrite` has failed (`write_chain_exact`).

* `ngxChainToIovec_spec` — a batch describes the buffers it covers.
* `Faultless` — no batch begins at the null pointer; there `ngx_chain_to_iovec` writes through it.
* `Stores` — what a writing function has done when it returns; it is proved for each of them.
-/

namespace WasiPorts.Nginx

open WasiPorts.Memory WasiPorts.Posix

/-! ## The code -/

/-- The result of a writing function: a count, `NGX_ERROR`, or none as it wrote through the null pointer. -/
inductive FileResult where
  | bytes (n : Nat)
  | error
  | fault
  deriving DecidableEq, Repr

section Code

variable (mem : Nat → Byte)

/-- The loop of `ngx_write_file`. -/
def ngxWriteFile (buf : Nat) : Nat → File → Nat → Nat → Nat → Option (FileResult × File)
  | 0, _, _, _, _ => none
  | fuel + 1, file, written, size, offset =>
    match file.fd.pwrite (load mem (buf + written) size) offset with
    | (.error .eintr, fd) => ngxWriteFile buf fuel { file with fd := fd } written size offset
    | (.error _, fd) => some (.error, { file with fd := fd })
    | (.ok n, fd) =>
      let file := ⟨fd, file.offset + n⟩
      if n = size then some (.bytes (written + n), file)
      else ngxWriteFile buf fuel file (written + n) (size - n) (offset + n)

/-- `ngx_chain_to_iovec`: the vector, and the buffers after it. The result is `none` for a write through
the null pointer. -/
def ngxChainToIovec (nalloc : Nat) : List Buf → Coalesce → Option (Coalesce × List Buf)
  | [], v => some (v, [])
  | b :: chain, v =>
    if ngxBufSpecial b then ngxChainToIovec nalloc chain v
    else
      let size := b.last - b.pos
      -- before the first piece, `prev` and `iov` are null
      if v.prev.getD 0 = b.pos then
        if v.iovs = [] then none else ngxChainToIovec nalloc chain (v.grow b.pos size)
      else if v.iovs.length = nalloc then some (v, b :: chain)
      else ngxChainToIovec nalloc chain (v.push b.pos size)

/-- The loop of `ngx_writev_file` in the WASI build. -/
def ngxWritevFile (fuel : Nat) : List Iovec → File → Nat → Nat → Option (FileResult × File)
  | [], file, _, written => some (.bytes written, file)
  | v :: iovs, file, offset, written =>
    if v.len = 0 then ngxWritevFile fuel iovs file offset written
    else
      match ngxWriteFile mem v.base fuel file 0 v.len (offset + written) with
      | some (.bytes n, file) => ngxWritevFile fuel iovs file offset (written + n)
      | r => r

/-- `ngx_writev_file` in the native build. -/
def ngxWritevFileNative (vec : Coalesce) : Nat → File → Nat → Option (FileResult × File)
  | 0, _, _ => none
  | fuel + 1, file, offset =>
    match file.fd.pwrite (piecesBytes mem vec.iovs.reverse) offset with
    | (.error .eintr, fd) => ngxWritevFileNative vec fuel { file with fd := fd } offset
    | (.error _, fd) => some (.error, { file with fd := fd })
    | (.ok n, fd) =>
      if n ≠ vec.total then some (.error, { file with fd := fd })
      else some (.bytes n, ⟨fd, file.offset + n⟩)

/-- The loop of `ngx_write_chain_to_file`, with the `ngx_writev_file` of the build. -/
def writeChainLoop (writev : Coalesce → File → Nat → Option (FileResult × File)) (fuel : Nat) :
    Nat → List Buf → File → Nat → Nat → Option (FileResult × File)
  | 0, _, _, _, _ => none
  | batches + 1, chain, file, offset, total =>
    match ngxChainToIovec ngxIovsPreallocate chain .start with
    | none => some (.fault, file)
    | some (vec, cl) =>
      match vec.iovs with
      | [iov] =>
        match ngxWriteFile mem iov.base fuel file 0 iov.len offset with
        | some (.bytes n, file) => some (.bytes (total + n), file)
        | r => r
      | _ =>
        match writev vec file offset with
        | some (.bytes n, file) =>
          if cl = [] then some (.bytes (total + n), file)
          else writeChainLoop writev fuel batches cl file (offset + n) (total + n)
        | r => r

/-- `ngx_write_chain_to_file`, with the `ngx_writev_file` of the build. -/
def writeChainToFile (writev : Coalesce → File → Nat → Option (FileResult × File)) (fuel : Nat)
    (file : File) (chain : List Buf) (offset : Nat) : Option (FileResult × File) :=
  match chain with
  -- `cl->next` needs a buffer
  | [] => none
  | [b] => ngxWriteFile mem b.pos fuel file 0 (b.last - b.pos) offset
  | chain => writeChainLoop mem writev fuel fuel chain file offset 0

/-- `ngx_write_chain_to_file` in the WASI build. -/
def ngxWriteChainToFile (fuel : Nat) : File → List Buf → Nat → Option (FileResult × File) :=
  writeChainToFile mem (fun vec file offset => ngxWritevFile mem fuel vec.iovs.reverse file offset 0)
    fuel

/-- `ngx_write_chain_to_file` in the native build. -/
def ngxWriteChainToFileNative (fuel : Nat) : File → List Buf → Nat → Option (FileResult × File) :=
  writeChainToFile mem (fun vec => ngxWritevFileNative mem vec fuel) fuel

end Code

/-! ## The bytes of a chain -/

/-- A buffer of a chain. Special buffers are empty. -/
structure Buf.Valid (b : Buf) : Prop where
  le : b.pos ≤ b.last
  special : ngxBufSpecial b = true → b.pos = b.last

variable (mem : Nat → Byte)

def bufContents (b : Buf) : List Byte := load mem b.pos (b.last - b.pos)

/-- The concatenation of the buffers. -/
def chainContents (chain : List Buf) : List Byte := chain.flatMap (bufContents mem)

variable {mem} {b : Buf} {chain cl : List Buf} {v : Coalesce} {xs ys : List Byte}

@[simp] theorem chainContents_nil : chainContents mem [] = [] := rfl

@[simp] theorem chainContents_cons :
    chainContents mem (b :: chain) = bufContents mem b ++ chainContents mem chain :=
  List.flatMap_cons

@[simp] theorem chainContents_append :
    chainContents mem (chain ++ cl) = chainContents mem chain ++ chainContents mem cl :=
  List.flatMap_append

theorem bufContents_of_eq (h : b.pos = b.last) : bufContents mem b = [] := by
  rw [bufContents, h, Nat.sub_self, load_zero]

/-- What `ngx_chain_to_iovec` has done with a chain of valid buffers: the vector describes the buffers
it took, and it stops before the end of the chain only when it is full. -/
theorem ngxChainToIovec_spec {nalloc : Nat} {vec : Coalesce} (hvalid : ∀ b ∈ chain, b.Valid)
    (hv : v.Describes mem xs) (hprev : v.prev = none → v.iovs = [])
    (h : ngxChainToIovec nalloc chain v = some (vec, cl)) :
    ∃ taken, chain = taken ++ cl ∧ vec.Describes mem (xs ++ chainContents mem taken) ∧
      vec.iovs.length ≤ v.iovs.length + taken.length ∧ (cl ≠ [] → vec.iovs.length = nalloc) := by
  induction chain generalizing v xs with
  | nil =>
      cases h
      refine ⟨[], rfl, ?_, Nat.le_refl _, absurd rfl⟩
      rwa [chainContents_nil, List.append_nil]
  | cons b chain ih =>
      have hb := hvalid b List.mem_cons_self
      have hrest := fun b' hb' => hvalid b' (List.mem_cons_of_mem b hb')
      -- the vector after `b`, whatever was done with it
      have hnext : ∀ v₁ : Coalesce, v₁.Describes mem (xs ++ bufContents mem b) →
          v₁.iovs.length ≤ v.iovs.length + 1 → (v₁.prev = none → v₁.iovs = []) →
          ngxChainToIovec nalloc chain v₁ = some (vec, cl) →
          ∃ taken, b :: chain = taken ++ cl ∧ vec.Describes mem (xs ++ chainContents mem taken) ∧
            vec.iovs.length ≤ v.iovs.length + taken.length ∧ (cl ≠ [] → vec.iovs.length = nalloc) := by
        intro v₁ hv₁ hlen hprev₁ h₁
        obtain ⟨taken, heq, hdesc, hle, hfull⟩ := ih hrest hv₁ hprev₁ h₁
        refine ⟨b :: taken, ?_, ?_, ?_, hfull⟩
        · rw [List.cons_append, ← heq]
        · rwa [chainContents_cons, ← List.append_assoc]
        · rw [List.length_cons]
          omega
      unfold ngxChainToIovec at h
      split at h
      · next hs =>
          exact hnext v (by rwa [bufContents_of_eq (hb.special hs), List.append_nil])
            (Nat.le_succ _) hprev h
      · dsimp only at h
        split at h
        · next hpos =>
            split at h
            · cases h
            · next hiovs =>
                cases hp : v.prev with
                | none => exact absurd (hprev hp) hiovs
                | some p =>
                    obtain rfl : p = b.pos := by simpa [hp] using hpos
                    refine hnext _ (hv.grow hp _) ?_ nofun h
                    unfold Coalesce.grow
                    cases v.iovs with
                    | nil => exact Nat.zero_le _
                    | cons iov iovs => exact Nat.le_succ _
        · split at h
          · next hfull =>
              cases h
              exact ⟨[], rfl, by simpa using hv, Nat.le_refl _, fun _ => hfull⟩
          · exact hnext _ (hv.push b.pos _) (Nat.le_refl _) nofun h

/-- Buffers that are not at the null pointer. -/
def Buf.NonNull (b : Buf) : Prop := ngxBufSpecial b = false → b.pos ≠ 0

theorem ngxChainToIovec_isSome {nalloc : Nat} (hnonnull : ∀ b ∈ chain, b.NonNull)
    (hprev : v.iovs = [] → v.prev = none) : (ngxChainToIovec nalloc chain v).isSome := by
  induction chain generalizing v with
  | nil => rfl
  | cons b chain ih =>
      have hrest := fun b' hb' => hnonnull b' (List.mem_cons_of_mem b hb')
      have hb := hnonnull b List.mem_cons_self
      unfold ngxChainToIovec
      split
      · exact ih hrest hprev
      · next hs =>
          dsimp only
          split
          · next hpos =>
              split
              · next hiovs =>
                  rw [hprev hiovs] at hpos
                  exact absurd hpos.symm (hb (by simpa using hs))
              · next hiovs =>
                  refine ih hrest fun hgrown => ?_
                  obtain ⟨iov, iovs, heq⟩ := List.exists_cons_of_ne_nil hiovs
                  simp [Coalesce.grow, heq] at hgrown
          · split
            · rfl
            · exact ih hrest nofun

/-! ## Batches -/

/-- No batch of the chain begins at the null pointer. -/
inductive Faultless : List Buf → Prop
  | last {chain vec} : ngxChainToIovec ngxIovsPreallocate chain .start = some (vec, []) → Faultless chain
  | more {chain vec cl} : ngxChainToIovec ngxIovsPreallocate chain .start = some (vec, cl) → Faultless cl →
      Faultless chain

/-- One batch: what it covers, and that it covers something. -/
theorem batch_contents (mem : Nat → Byte) {vec : Coalesce} (hvalid : ∀ b ∈ chain, b.Valid)
    (h : ngxChainToIovec ngxIovsPreallocate chain .start = some (vec, cl)) :
    ∃ taken, chain = taken ++ cl ∧ vec.Describes mem (chainContents mem taken) ∧
      (cl ≠ [] → taken ≠ [] ∧ vec.iovs.length = 64) := by
  obtain ⟨taken, heq, hdesc, hle, hfull⟩ := ngxChainToIovec_spec hvalid (.start mem) (fun _ => rfl) h
  refine ⟨taken, heq, hdesc, fun hcl => ?_⟩
  have hlen := hfull hcl
  refine ⟨?_, hlen⟩
  rintro rfl
  have hzero : Coalesce.start.iovs.length + ([] : List Buf).length = 0 := rfl
  have h64 : ngxIovsPreallocate = 64 := rfl
  omega

theorem Faultless.batch (h : Faultless chain) :
    ∃ vec cl, ngxChainToIovec ngxIovsPreallocate chain .start = some (vec, cl) ∧ (cl ≠ [] → Faultless cl) := by
  cases h with
  | last heq => exact ⟨_, _, heq, absurd rfl⟩
  | more heq hrest => exact ⟨_, _, heq, fun _ => hrest⟩

/-- A chain without buffers at the null pointer. -/
theorem Faultless.of_nonNull (hvalid : ∀ b ∈ chain, b.Valid) (hnonnull : ∀ b ∈ chain, b.NonNull) :
    Faultless chain := by
  induction hn : chain.length using Nat.strong_induction_on generalizing chain with
  | _ n ih =>
      have hsome : (ngxChainToIovec ngxIovsPreallocate chain .start).isSome :=
        ngxChainToIovec_isSome hnonnull fun _ => rfl
      obtain ⟨⟨vec, cl⟩, hbatch⟩ := Option.isSome_iff_exists.mp hsome
      by_cases hcl : cl = []
      · subst hcl
        exact .last hbatch
      · obtain ⟨taken, heq, -, hmore⟩ := batch_contents (fun _ => 0) hvalid hbatch
        have htaken := List.length_pos_iff.mpr (hmore hcl).1
        have hmem : ∀ b ∈ cl, b ∈ chain := fun b hb => heq ▸ List.mem_append_right taken hb
        refine .more hbatch (ih cl.length ?_ (fun b hb => hvalid b (hmem b hb))
          (fun b hb => hnonnull b (hmem b hb)) rfl)
        rw [← hn, heq, List.length_append]
        omega

/-! ## Writing -/

variable {file file' file'' : File} {offset written fuel K : Nat} {r : FileResult × File}

/-- `file'` is `file` after `xs` was written at `offset`. -/
structure Written (file : File) (offset : Nat) (xs : List Byte) (file' : File) : Prop where
  inode : file'.fd.inode = file.fd.inode.pwriteAt offset xs
  outcome : file'.fd.outcome = file.fd.outcome
  calls : file.fd.calls ≤ file'.fd.calls
  offset : file'.offset = file.offset + xs.length

theorem Written.refl (file : File) (offset : Nat) : Written file offset [] file :=
  ⟨(Inode.pwriteAt_nil _ _).symm, rfl, Nat.le_refl _, (Int.add_zero _).symm⟩

theorem Written.trans (h : Written file offset xs file')
    (h' : Written file' (offset + xs.length) ys file'') : Written file offset (xs ++ ys) file'' := by
  refine ⟨?_, h'.outcome.trans h.outcome, Nat.le_trans h.calls h'.calls, ?_⟩
  · rw [h'.inode, h.inode, Inode.pwriteAt_append]
  · rw [h'.offset, h.offset, List.length_append]
    push_cast
    omega

/-- Of the calls from `file` to `file'` one has failed, and was not interrupted, or could not have moved
`m` bytes. -/
def HasFailed (m : Nat) (file file' : File) : Prop :=
  ∃ i, file.fd.calls ≤ i ∧ i < file'.fd.calls ∧
    ((∃ e, e ≠ .eintr ∧ file.fd.outcome i = .fail e) ∨ ∃ n, n + 1 < m ∧ file.fd.outcome i = .move n)

/-- A function that does not fail has written `xs`, and returns the count after `written`. If it fails,
a call has failed. -/
def Stores (m : Nat) (file : File) (offset : Nat) (xs : List Byte) (written : Nat) :
    FileResult × File → Prop
  | (.bytes n, file') => n = written + xs.length ∧ Written file offset xs file'
  | (.error, file') => HasFailed m file file'
  | (.fault, _) => False

variable {m : Nat}

theorem Stores.after (h : Written file offset xs file')
    (hrest : Stores m file' (offset + xs.length) ys (written + xs.length) r) :
    Stores m file offset (xs ++ ys) written r := by
  obtain ⟨n | _ | _, file''⟩ := r
  · obtain ⟨hn, hwritten⟩ := hrest
    refine ⟨?_, h.trans hwritten⟩
    rw [hn, List.length_append, Nat.add_assoc]
  · obtain ⟨i, hi, hi', hfail⟩ := hrest
    rw [h.outcome] at hfail
    exact ⟨i, Nat.le_trans h.calls hi, hi', hfail⟩
  · exact hrest

/-- The file after a call that failed. -/
def File.called (file : File) : File :=
  { file with fd := { file.fd with calls := file.fd.calls + 1 } }

/-- The file after a call that wrote `xs`. -/
def File.stored (file : File) (offset : Nat) (xs : List Byte) : File :=
  ⟨{ file.fd with inode := file.fd.inode.pwriteAt offset xs, calls := file.fd.calls + 1 },
    file.offset + xs.length⟩

theorem File.written_called (file : File) (offset : Nat) : Written file offset [] file.called :=
  ⟨(Inode.pwriteAt_nil _ _).symm, rfl, Nat.le_succ _, (Int.add_zero _).symm⟩

theorem File.hasFailed_called {file : File} {e : Errno}
    (hout : file.fd.outcome file.fd.calls = .fail e) (he : e ≠ .eintr) : HasFailed m file file.called :=
  ⟨file.fd.calls, Nat.le_refl _, Nat.lt_succ_self _, .inl ⟨e, he, hout⟩⟩

theorem File.written_stored (file : File) (offset : Nat) (xs : List Byte) :
    Written file offset xs (file.stored offset xs) :=
  ⟨rfl, rfl, Nat.le_succ _, rfl⟩

theorem pwrite_cases (file : File) (xs : List Byte) (offset : Nat) :
    (∃ n, file.fd.outcome file.fd.calls = .move n ∧ file.fd.pwrite xs offset =
      (.ok (xs.take (n + 1)).length, (file.stored offset (xs.take (n + 1))).fd)) ∨
    ∃ e, file.fd.outcome file.fd.calls = .fail e ∧
      file.fd.pwrite xs offset = (.error e, file.called.fd) := by
  unfold HostedFile.pwrite
  cases h : file.fd.outcome file.fd.calls with
  | move n => exact .inl ⟨n, rfl, rfl⟩
  | fail e => exact .inr ⟨e, rfl, rfl⟩

variable {buf size : Nat}

theorem ngxWriteFile_spec (h : ngxWriteFile mem buf fuel file written size offset = some r) :
    Stores m file offset (load mem (buf + written) size) written r := by
  induction fuel generalizing file written size offset with
  | zero => cases h
  | succ fuel ih =>
      unfold ngxWriteFile at h
      rcases pwrite_cases file (load mem (buf + written) size) offset with
        ⟨n, hout, hwrite⟩ | ⟨e, hout, hwrite⟩
      · rw [hwrite] at h
        dsimp only at h
        generalize hxs : (load mem (buf + written) size).take (n + 1) = xs at h
        have hlen : xs.length ≤ size := by
          rw [← hxs, List.length_take, load_length]
          omega
        have hxs' : xs = load mem (buf + written) xs.length := by
          have hlen' : xs.length = min (n + 1) size := by
            rw [← hxs, List.length_take, load_length]
          rw [hlen', ← hxs]
          rcases Nat.le_total (n + 1) size with hle | hle
          · rw [Nat.min_eq_left hle, take_load _ _ hle]
          · rw [Nat.min_eq_right hle, List.take_of_length_le (by rw [load_length]; omega)]
        have hsplit : load mem (buf + written) size =
            xs ++ load mem (buf + (written + xs.length)) (size - xs.length) := by
          conv_lhs => rw [← Nat.add_sub_of_le hlen, load_add, ← hxs']
          rw [Nat.add_assoc]
        rw [hsplit]
        refine .after (file.written_stored offset xs) ?_
        split at h
        · next hall =>
            cases h
            subst hall
            rw [Nat.sub_self, load_zero]
            exact ⟨rfl, .refl _ _⟩
        · exact ih h
      · rw [hwrite] at h
        cases e with
        | eintr =>
            show Stores m file offset ([] ++ load mem (buf + written) size) written r
            exact .after (file.written_called offset) (ih h)
        | eagain =>
            cases h
            exact File.hasFailed_called hout nofun
        | other code =>
            cases h
            exact File.hasFailed_called hout nofun

theorem piecesBytes_cons (iov : Iovec) (iovs : List Iovec) :
    piecesBytes mem (iov :: iovs) = load mem iov.base iov.len ++ piecesBytes mem iovs :=
  List.flatMap_cons

theorem ngxWritevFile_spec {iovs : List Iovec}
    (h : ngxWritevFile mem fuel iovs file offset written = some r) :
    Stores m file (offset + written) (piecesBytes mem iovs) written r := by
  induction iovs generalizing file written with
  | nil =>
      cases h
      exact ⟨rfl, .refl _ _⟩
  | cons iov iovs ih =>
      rw [piecesBytes_cons]
      unfold ngxWritevFile at h
      split at h
      · next hempty =>
          rw [hempty, load_zero]
          exact ih h
      · cases hw : ngxWriteFile mem iov.base fuel file 0 iov.len (offset + written) with
        | none =>
            rw [hw] at h
            cases h
        | some r₁ =>
            rw [hw] at h
            have hspec := ngxWriteFile_spec (m := m) hw
            obtain ⟨n | _ | _, file₁⟩ := r₁
            · obtain ⟨hn, hwritten⟩ := hspec
              rw [Nat.zero_add] at hn
              subst hn
              exact .after hwritten (by simpa [Nat.add_assoc] using ih h)
            · cases h
              exact hspec
            · exact hspec.elim

theorem ngxWritevFileNative_spec (hv : v.Describes mem xs) (hm : xs.length ≤ m)
    (h : ngxWritevFileNative mem v fuel file offset = some r) : Stores m file offset xs 0 r := by
  induction fuel generalizing file with
  | zero => cases h
  | succ fuel ih =>
      unfold ngxWritevFileNative at h
      rw [hv.bytes] at h
      rcases pwrite_cases file xs offset with ⟨n, hout, hwrite⟩ | ⟨e, hout, hwrite⟩
      · rw [hwrite] at h
        dsimp only at h
        split at h
        · next hshort =>
            cases h
            refine ⟨file.fd.calls, Nat.le_refl _, Nat.lt_succ_self _, .inr ⟨n, ?_, hout⟩⟩
            rw [hv.total, List.length_take] at hshort
            omega
        · next hall =>
            cases h
            have hall : (xs.take (n + 1)).length = xs.length := by
              rw [← hv.total]
              exact Classical.not_not.mp hall
            have htake : xs.take (n + 1) = xs := by
              apply List.take_of_length_le
              rw [List.length_take] at hall
              omega
            have hstored := file.written_stored offset xs
            rw [htake]
            exact ⟨(Nat.zero_add _).symm, hstored⟩
      · rw [hwrite] at h
        cases e with
        | eintr =>
            show Stores m file offset ([] ++ xs) 0 r
            exact .after (file.written_called offset) (ih h)
        | eagain =>
            cases h
            exact File.hasFailed_called hout nofun
        | other code =>
            cases h
            exact File.hasFailed_called hout nofun

/-! ## The chain -/

variable {writev : Coalesce → File → Nat → Option (FileResult × File)} {batches total L : Nat}

theorem writeChainLoop_spec
    (hwritev : ∀ {vec xs file offset r}, vec.Describes mem xs → xs.length ≤ L →
      writev vec file offset = some r → Stores m file offset xs 0 r)
    (hvalid : ∀ b ∈ chain, b.Valid) (hfaultless : Faultless chain)
    (hL : (chainContents mem chain).length ≤ L)
    (h : writeChainLoop mem writev fuel batches chain file offset total = some r) :
    Stores m file offset (chainContents mem chain) total r := by
  induction batches generalizing chain file offset total with
  | zero => cases h
  | succ batches ih =>
      obtain ⟨vec, cl, hbatch, hrest⟩ := hfaultless.batch
      obtain ⟨taken, heq, hdesc, hmore⟩ := batch_contents mem hvalid hbatch
      have hcontents : (chainContents mem chain).length =
          (chainContents mem taken).length + (chainContents mem cl).length := by
        rw [heq, chainContents_append, List.length_append]
      unfold writeChainLoop at h
      rw [hbatch] at h
      dsimp only at h
      split at h
      · next iov hiovs =>
          -- a vector with one piece is not full, so this is the end of the chain
          obtain rfl : cl = [] := by
            by_contra hcl
            have hlen := (hmore hcl).2
            rw [hiovs] at hlen
            cases hlen
          rw [List.append_nil] at heq
          have hbytes := hdesc.bytes
          rw [hiovs, List.reverse_singleton, piecesBytes_singleton] at hbytes
          rw [heq, ← hbytes]
          cases hw : ngxWriteFile mem iov.base fuel file 0 iov.len offset with
          | none =>
              rw [hw] at h
              cases h
          | some r₁ =>
              rw [hw] at h
              have hspec := ngxWriteFile_spec (m := m) hw
              obtain ⟨n | _ | _, file₁⟩ := r₁
              · cases h
                obtain ⟨hn, hwritten⟩ := hspec
                exact ⟨by rw [hn, Nat.zero_add]; rfl, hwritten⟩
              · cases h
                exact hspec
              · exact hspec.elim
      · cases hw : writev vec file offset with
        | none =>
            rw [hw] at h
            cases h
        | some r₁ =>
            rw [hw] at h
            have hspec := hwritev hdesc (by omega) hw
            obtain ⟨n | _ | _, file₁⟩ := r₁
            · obtain ⟨hn, hwritten⟩ := hspec
              rw [Nat.zero_add] at hn
              subst hn
              rw [heq, chainContents_append]
              refine .after hwritten ?_
              dsimp only at h
              split at h
              · next hcl =>
                  cases h
                  subst hcl
                  exact ⟨rfl, .refl _ _⟩
              · next hcl =>
                  refine ih (fun b hb => hvalid b ?_) (hrest hcl) (by omega) h
                  rw [heq]
                  exact List.mem_append_right taken hb
            · cases h
              obtain ⟨i, hi, hi', hfail⟩ := hspec
              exact ⟨i, hi, hi', hfail⟩
            · exact hspec.elim

theorem writeChainToFile_spec
    (hwritev : ∀ {vec xs file offset r}, vec.Describes mem xs → xs.length ≤ L →
      writev vec file offset = some r → Stores m file offset xs 0 r)
    (hvalid : ∀ b ∈ chain, b.Valid) (hfaultless : 1 < chain.length → Faultless chain)
    (hL : (chainContents mem chain).length ≤ L)
    (h : writeChainToFile mem writev fuel file chain offset = some r) :
    Stores m file offset (chainContents mem chain) 0 r := by
  unfold writeChainToFile at h
  split at h
  · cases h
  · next b =>
      have hspec := ngxWriteFile_spec (m := m) h
      rwa [chainContents_cons, chainContents_nil, List.append_nil]
  · next hne hone =>
      refine writeChainLoop_spec hwritev hvalid (hfaultless ?_) hL h
      rcases chain with _ | ⟨b, _ | ⟨b', chain⟩⟩
      · exact absurd rfl hne
      · exact absurd rfl (hone b)
      · simp

/-! ## The functions return -/

/-- Interruptions aside, every call makes the rest shorter. -/
theorem ngxWriteFile_isSome (hK : file.fd.FinitelyInterrupted K)
    (hfuel : size + (K - file.fd.calls) < fuel) :
    (ngxWriteFile mem buf fuel file written size offset).isSome := by
  induction fuel generalizing file written size offset with
  | zero => exact absurd hfuel (Nat.not_lt_zero _)
  | succ fuel ih =>
      unfold ngxWriteFile
      rcases pwrite_cases file (load mem (buf + written) size) offset with
        ⟨n, hout, hwrite⟩ | ⟨e, hout, hwrite⟩
      · rw [hwrite]
        dsimp only
        split
        · rfl
        · next hpart =>
            rw [List.length_take, load_length] at hpart ⊢
            refine ih hK ?_
            show size - min (n + 1) size + (K - (file.fd.calls + 1)) < fuel
            omega
      · rw [hwrite]
        cases e with
        | eintr =>
            have hlt : file.fd.calls < K := by
              by_contra hge
              exact hK file.fd.calls (by omega) hout
            refine ih (show file.called.fd.FinitelyInterrupted K from hK) ?_
            show size + (K - (file.fd.calls + 1)) < fuel
            omega
        | eagain => rfl
        | other code => rfl

theorem len_le_piecesBytes (mem : Nat → Byte) {iov : Iovec} {iovs : List Iovec} (h : iov ∈ iovs) :
    iov.len ≤ (piecesBytes mem iovs).length := by
  obtain ⟨s, t, rfl⟩ := List.append_of_mem h
  rw [piecesBytes_append, piecesBytes_cons, List.length_append, List.length_append, load_length]
  omega

theorem ngxWritevFile_isSome {iovs : List Iovec} (hK : file.fd.FinitelyInterrupted K)
    (hfuel : ∀ iov ∈ iovs, iov.len + K < fuel) :
    (ngxWritevFile mem fuel iovs file offset written).isSome := by
  induction iovs generalizing file written with
  | nil => rfl
  | cons iov iovs ih =>
      have hiov := hfuel iov List.mem_cons_self
      have hiovs := fun iov' h' => hfuel iov' (List.mem_cons_of_mem iov h')
      unfold ngxWritevFile
      split
      · exact ih hK hiovs
      · have hsome : (ngxWriteFile mem iov.base fuel file 0 iov.len (offset + written)).isSome :=
          ngxWriteFile_isSome hK (by omega)
        obtain ⟨r₁, hw⟩ := Option.isSome_iff_exists.mp hsome
        rw [hw]
        have hspec := ngxWriteFile_spec (m := 0) hw
        obtain ⟨n | _ | _, file₁⟩ := r₁
        · exact ih (fun i hi => hspec.2.outcome ▸ hK i hi) hiovs
        · rfl
        · rfl

theorem ngxWritevFileNative_isSome (hK : file.fd.FinitelyInterrupted K)
    (hfuel : K - file.fd.calls < fuel) : (ngxWritevFileNative mem v fuel file offset).isSome := by
  induction fuel generalizing file with
  | zero => exact absurd hfuel (Nat.not_lt_zero _)
  | succ fuel ih =>
      unfold ngxWritevFileNative
      rcases pwrite_cases file (piecesBytes mem v.iovs.reverse) offset with
        ⟨n, hout, hwrite⟩ | ⟨e, hout, hwrite⟩
      · rw [hwrite]
        dsimp only
        split
        · rfl
        · rfl
      · rw [hwrite]
        cases e with
        | eintr =>
            have hlt : file.fd.calls < K := by
              by_contra hge
              exact hK file.fd.calls (by omega) hout
            refine ih (show file.called.fd.FinitelyInterrupted K from hK) ?_
            show K - (file.fd.calls + 1) < fuel
            omega
        | eagain => rfl
        | other code => rfl

theorem writeChainLoop_isSome
    (hwritev : ∀ {vec xs file offset r}, vec.Describes mem xs → xs.length ≤ L →
      writev vec file offset = some r → Stores m file offset xs 0 r)
    (hsome : ∀ {vec xs file offset}, vec.Describes mem xs → file.fd.FinitelyInterrupted K →
      xs.length + K < fuel → (writev vec file offset).isSome)
    (hvalid : ∀ b ∈ chain, b.Valid) (hL : (chainContents mem chain).length ≤ L)
    (hK : file.fd.FinitelyInterrupted K) (hfuel : (chainContents mem chain).length + K < fuel)
    (hbatches : chain.length < batches) :
    (writeChainLoop mem writev fuel batches chain file offset total).isSome := by
  induction batches generalizing chain file offset total with
  | zero => exact absurd hbatches (Nat.not_lt_zero _)
  | succ batches ih =>
      unfold writeChainLoop
      cases hbatch : ngxChainToIovec ngxIovsPreallocate chain .start with
      | none => rfl
      | some batch =>
          obtain ⟨vec, cl⟩ := batch
          obtain ⟨taken, heq, hdesc, hmore⟩ := batch_contents mem hvalid hbatch
          have hcontents : (chainContents mem chain).length =
              (chainContents mem taken).length + (chainContents mem cl).length := by
            rw [heq, chainContents_append, List.length_append]
          dsimp only
          split
          · next iov hiovs =>
              -- the vector has one piece: the loop returns
              have hlen : iov.len ≤ (chainContents mem taken).length := by
                rw [← hdesc.bytes]
                exact len_le_piecesBytes mem (by simp [hiovs])
              have hwrites : (ngxWriteFile mem iov.base fuel file 0 iov.len offset).isSome :=
                ngxWriteFile_isSome hK (by omega)
              obtain ⟨r₁, hw⟩ := Option.isSome_iff_exists.mp hwrites
              rw [hw]
              obtain ⟨n | _ | _, file₁⟩ := r₁ <;> rfl
          · have hwrites : (writev vec file offset).isSome := hsome hdesc hK (by omega)
            obtain ⟨r₁, hw⟩ := Option.isSome_iff_exists.mp hwrites
            rw [hw]
            have hspec := hwritev hdesc (by omega) hw
            obtain ⟨n | _ | _, file₁⟩ := r₁
            · dsimp only
              split
              · rfl
              · next hcl =>
                  -- a batch that is not the last one has taken some buffers, which bounds the number of batches
                  have htaken := List.length_pos_iff.mpr (hmore hcl).1
                  have hlen : chain.length = taken.length + cl.length := by
                    rw [heq, List.length_append]
                  refine ih (fun b hb => hvalid b ?_) (by omega) (fun i hi => hspec.2.outcome ▸ hK i hi)
                    (by omega) (by omega)
                  rw [heq]
                  exact List.mem_append_right taken hb
            · rfl
            · rfl

/-! ## The two builds -/

/-- Every call moves at least `m` bytes, if asked for as many. -/
def Complete (fd : HostedFile Byte) (m : Nat) : Prop := ∀ i, ∃ n, m ≤ n ∧ fd.outcome i = .move n

theorem Complete.not_fail (h : Complete file.fd m) {i : Nat} {e : Errno} :
    file.fd.outcome i ≠ .fail e := by
  obtain ⟨n, -, hmove⟩ := h i
  rw [hmove]
  nofun

theorem Complete.not_hasFailed (h : Complete file.fd m) : ¬ HasFailed m file file' := by
  rintro ⟨i, -, -, ⟨e, -, hfail⟩ | ⟨n, hn, hmove⟩⟩
  · exact h.not_fail hfail
  · obtain ⟨n', hn', hmove'⟩ := h i
    obtain rfl : n' = n := IoOutcome.move.inj (hmove'.symm.trans hmove)
    omega

theorem ngxWriteChainToFile_isSome (hne : chain ≠ []) (hvalid : ∀ b ∈ chain, b.Valid)
    (hK : file.fd.FinitelyInterrupted K)
    (hfuel : (chainContents mem chain).length + K + chain.length < fuel) :
    (ngxWriteChainToFile mem fuel file chain offset).isSome := by
  unfold ngxWriteChainToFile writeChainToFile
  split
  · exact absurd rfl hne
  · next b =>
      apply ngxWriteFile_isSome hK
      rw [chainContents_cons, chainContents_nil, List.append_nil, bufContents, load_length] at hfuel
      omega
  · refine writeChainLoop_isSome (m := 0) (K := K) (fun hdesc _ hw => ?_) (fun hdesc hK hlen => ?_) hvalid
      (Nat.le_refl _) hK (by omega) (by omega)
    · have hspec := ngxWritevFile_spec (m := 0) hw
      rwa [hdesc.bytes] at hspec
    · refine ngxWritevFile_isSome hK fun iov hiov => ?_
      have hle := len_le_piecesBytes mem hiov
      rw [hdesc.bytes] at hle
      omega

theorem ngxWriteChainToFile_spec (hvalid : ∀ b ∈ chain, b.Valid)
    (hfaultless : 1 < chain.length → Faultless chain)
    (h : ngxWriteChainToFile mem fuel file chain offset = some r) :
    Stores 0 file offset (chainContents mem chain) 0 r := by
  refine writeChainToFile_spec (fun hdesc _ hw => ?_) hvalid hfaultless (Nat.le_refl _) h
  have hspec := ngxWritevFile_spec (m := 0) hw
  rwa [hdesc.bytes] at hspec

/-- On a host whose calls are all complete, the native build writes the chain. -/
theorem native_write (file : File) (offset : Nat) (hne : chain ≠ []) (hvalid : ∀ b ∈ chain, b.Valid)
    (hfaultless : 1 < chain.length → Faultless chain)
    (hc : Complete file.fd (chainContents mem chain).length)
    (hfuel : (chainContents mem chain).length + chain.length < fuel) :
    ∃ file', ngxWriteChainToFileNative mem fuel file chain offset =
        some (.bytes (chainContents mem chain).length, file') ∧
      Written file offset (chainContents mem chain) file' := by
  have hK : file.fd.FinitelyInterrupted 0 := fun i _ => hc.not_fail
  have hsome : (ngxWriteChainToFileNative mem fuel file chain offset).isSome := by
    unfold ngxWriteChainToFileNative writeChainToFile
    split
    · exact absurd rfl hne
    · next b =>
        apply ngxWriteFile_isSome hK
        rw [chainContents_cons, chainContents_nil, List.append_nil, bufContents, load_length] at hfuel
        omega
    · exact writeChainLoop_isSome (K := 0) ngxWritevFileNative_spec
        (fun _ hK _ => ngxWritevFileNative_isSome hK (by omega)) hvalid (Nat.le_refl _) hK (by omega)
        (by omega)
  obtain ⟨r, hr⟩ := Option.isSome_iff_exists.mp hsome
  have hspec : Stores (chainContents mem chain).length file offset (chainContents mem chain) 0 r :=
    writeChainToFile_spec ngxWritevFileNative_spec hvalid hfaultless (Nat.le_refl _) hr
  obtain ⟨n | _ | _, file'⟩ := r
  · obtain ⟨hn, hwritten⟩ := hspec
    rw [Nat.zero_add] at hn
    exact ⟨file', hn ▸ hr, hwritten⟩
  · exact absurd hspec hc.not_hasFailed
  · exact hspec.elim

/-- The chain is stored at the offset: its bytes are there, the others are as before, and the result and
the growth of `file->offset` are its length. -/
structure ChainStored (mem : Nat → Byte) (chain : List Buf) (file : File) (offset : Nat) (r : FileResult)
    (file' : File) : Prop where
  result : r = .bytes (chainContents mem chain).length
  written : ∀ i < (chainContents mem chain).length,
    file'.fd.inode.data[offset + i]? = (chainContents mem chain)[i]?
  kept : ∀ i < file.fd.inode.data.length, i < offset ∨ offset + (chainContents mem chain).length ≤ i →
    file'.fd.inode.data[i]? = file.fd.inode.data[i]?
  length : file'.fd.inode.data.length =
    if chainContents mem chain = [] then file.fd.inode.data.length
    else max file.fd.inode.data.length (offset + (chainContents mem chain).length)
  offset : file'.offset = file.offset + (chainContents mem chain).length

theorem Written.chainStored (h : Written file offset (chainContents mem chain) file') :
    ChainStored mem chain file offset (.bytes (chainContents mem chain).length) file' where
  result := rfl
  written i hi := by rw [h.inode, Inode.pwriteAt_written _ _ hi]
  kept i hi hout := by rw [h.inode, Inode.pwriteAt_kept _ _ _ hi hout]
  length := by
    rw [h.inode]
    split
    · next hempty => rw [hempty, Inode.pwriteAt_nil]
    · next hnonempty => rw [Inode.pwriteAt_length _ _ hnonempty]
  offset := h.offset

/-- **A chain is stored exactly**, if none of its batches begins at the null pointer. With finitely many
interruptions the call returns. It returns `NGX_ERROR` only if a `pwrite` failed and was not interrupted;
otherwise the chain is stored. On a host that completes every call the native build stores it, and ends
with the same file. -/
theorem write_chain_exact (mem : Nat → Byte) (chain : List Buf) (hne : chain ≠ [])
    (hvalid : ∀ b ∈ chain, b.Valid) (hfaultless : 1 < chain.length → Faultless chain) (file : File)
    (offset K : Nat) (hK : file.fd.FinitelyInterrupted K) (native : HostedFile Byte)
    (hsame : native.inode = file.fd.inode)
    (hcomplete : Complete native (chainContents mem chain).length) :
    ∃ fuel₀, ∀ fuel, fuel₀ ≤ fuel → ∃ r file' r' file'',
      ngxWriteChainToFile mem fuel file chain offset = some (r, file') ∧
      (r = .error → ∃ i, file.fd.calls ≤ i ∧ i < file'.fd.calls ∧
        ∃ e, e ≠ .eintr ∧ file.fd.outcome i = .fail e) ∧
      (r ≠ .error → ChainStored mem chain file offset r file') ∧
      ngxWriteChainToFileNative mem fuel { file with fd := native } chain offset = some (r', file'') ∧
      ChainStored mem chain { file with fd := native } offset r' file'' ∧
      (r ≠ .error → r' = r ∧ file''.fd.inode = file'.fd.inode ∧ file''.offset = file'.offset) := by
  refine ⟨(chainContents mem chain).length + K + chain.length + 1, fun fuel hfuel => ?_⟩
  -- fuel for the bytes, the interruptions and the batches
  have hsome : (ngxWriteChainToFile mem fuel file chain offset).isSome :=
    ngxWriteChainToFile_isSome hne hvalid hK (by omega)
  obtain ⟨⟨r, file'⟩, hr⟩ := Option.isSome_iff_exists.mp hsome
  obtain ⟨file'', hr'', hwritten''⟩ :=
    native_write { file with fd := native } offset hne hvalid hfaultless hcomplete
      (show (chainContents mem chain).length + chain.length < fuel by omega)
  have hspec := ngxWriteChainToFile_spec hvalid hfaultless hr
  refine ⟨r, file', _, file'', hr, ?_, ?_, hr'', hwritten''.chainStored, ?_⟩
  · rintro rfl
    obtain ⟨i, hi, hi', hfail | ⟨n, hn, -⟩⟩ := hspec
    · exact ⟨i, hi, hi', hfail⟩
    · exact absurd hn (Nat.not_lt_zero _)
  · intro hok
    cases r with
    | bytes n =>
        obtain ⟨hn, hwritten⟩ := hspec
        rw [Nat.zero_add] at hn
        exact hn ▸ hwritten.chainStored
    | error => exact absurd rfl hok
    | fault => exact hspec.elim
  · intro hok
    cases r with
    | bytes n =>
        obtain ⟨hn, hwritten⟩ := hspec
        rw [Nat.zero_add] at hn
        refine ⟨by rw [hn], ?_, ?_⟩
        · rw [hwritten.inode, hwritten''.inode, hsame]
        · rw [hwritten.offset, hwritten''.offset]
    | error => exact absurd rfl hok
    | fault => exact hspec.elim

/-- Two buffers next to each other, a special one, and one elsewhere. -/
def sampleChain : List Buf :=
  [⟨10, 12, 0, 0, true, false, false, false, false, false, false⟩,
    ⟨0, 0, 0, 0, false, false, false, false, true, false, false⟩,
    ⟨12, 15, 0, 0, true, false, false, false, false, false, false⟩,
    ⟨40, 42, 0, 0, false, true, false, false, false, false, true⟩]

def sampleMemory (i : Nat) : Byte := UInt8.ofNat i

theorem sampleChain_valid : ∀ b ∈ sampleChain, b.Valid := by
  intro b hb
  simp only [sampleChain, List.mem_cons, List.not_mem_nil, or_false] at hb
  rcases hb with rfl | rfl | rfl | rfl <;> constructor <;> decide

theorem sampleChain_nonNull : ∀ b ∈ sampleChain, b.NonNull := by
  intro b hb
  simp only [sampleChain, List.mem_cons, List.not_mem_nil, or_false] at hb
  rcases hb with rfl | rfl | rfl | rfl <;> simp [Buf.NonNull, ngxBufSpecial, ngxBufInMemory]

/-- On a host that writes one byte at a time, after an interruption. -/
theorem sample_chain_exact :
    ∃ fuel₀, ∀ fuel, fuel₀ ≤ fuel → ∃ r file' r' file'',
      ngxWriteChainToFile sampleMemory fuel sampleFile sampleChain 3 = some (r, file') ∧
      (r = .error → ∃ i, sampleFile.fd.calls ≤ i ∧ i < file'.fd.calls ∧
        ∃ e, e ≠ .eintr ∧ sampleFile.fd.outcome i = .fail e) ∧
      (r ≠ .error → ChainStored sampleMemory sampleChain sampleFile 3 r file') ∧
      ngxWriteChainToFileNative sampleMemory fuel
        { sampleFile with fd := ⟨sampleFile.fd.inode, fun _ => .move 7, 0⟩ } sampleChain 3 = some (r', file'') ∧
      ChainStored sampleMemory sampleChain { sampleFile with fd := ⟨sampleFile.fd.inode, fun _ => .move 7, 0⟩ } 3
        r' file'' ∧
      (r ≠ .error → r' = r ∧ file''.fd.inode = file'.fd.inode ∧ file''.offset = file'.offset) := by
  refine write_chain_exact sampleMemory sampleChain (by decide) sampleChain_valid
    (fun _ => .of_nonNull sampleChain_valid sampleChain_nonNull) sampleFile 3 1 ?_ _ rfl ?_
  · intro i hi
    have hne : i ≠ 0 := by omega
    simp [sampleFile, hne]
  · exact fun _ => ⟨7, by decide, rfl⟩

/-- An empty buffer in memory at the null pointer, and one with two bytes. -/
def nullChain : List Buf :=
  [⟨0, 0, 0, 0, true, false, false, false, false, false, false⟩,
    ⟨10, 12, 0, 0, true, false, false, false, false, false, true⟩]

/-- The first buffer begins where the null `prev` is, and the null `iov` is written through. -/
theorem null_buffer_faults :
    (∀ b ∈ nullChain, b.Valid) ∧
      ∀ fuel, ngxWriteChainToFile sampleMemory (fuel + 1) sampleFile nullChain 3 = some (.fault, sampleFile) ∧
        ¬ (FileResult.fault ≠ .error → ChainStored sampleMemory nullChain sampleFile 3 .fault sampleFile) := by
  constructor
  · intro b hb
    simp only [nullChain, List.mem_cons, List.not_mem_nil, or_false] at hb
    rcases hb with rfl | rfl <;> constructor <;> decide
  · intro fuel
    refine ⟨rfl, fun h => ?_⟩
    exact absurd (h nofun).result nofun

end WasiPorts.Nginx
