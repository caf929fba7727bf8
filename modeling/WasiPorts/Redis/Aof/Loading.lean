import WasiPorts.Redis.Aof.Files
import WasiPorts.Redis.Aof.Startup
import WasiPorts.Redis.Aof.WellFormed

/-!
# What loading depends on

The result of `loadAppendOnlyFiles` is determined by the contents of the files that the manifest
names as BASE and INCR files.
-/

namespace WasiPorts.Redis.Aof

open WasiPorts.Posix WasiPorts.Posix.Fs

variable {D A δ : Type} [Commands A δ] [AofFormat D A δ]

namespace Replay

omit [AofFormat D A δ]

/-- Executing commands leaves the queue alone. -/
theorem exec_queue (st : Replay A δ) (r : Rec A δ) : (st.exec r).queue = st.queue := by
  cases r <;> rfl

theorem foldl_exec_queue (rs : List (Rec A δ)) (st : Replay A δ) :
    (rs.foldl exec st).queue = st.queue := by
  induction rs generalizing st with
  | nil => rfl
  | cons r rs ih => exact (ih (st.exec r)).trans (st.exec_queue r)

end Replay

omit [Commands A δ] [AofFormat D A δ] in
theorem unexpectedEof_cut {lt : Bool} {cut : Nat} {d : δ} (h : (unexpectedEof lt cut d).1 ≠ .truncated) :
    (unexpectedEof lt cut d).2.2 = none := by
  cases lt with
  | true => exact absurd rfl h
  | false => rfl

omit [Commands A δ] [AofFormat D A δ] in
theorem endOfFile_cut {lt : Bool} {cut : Nat} {st : Replay A δ} (h : (endOfFile lt cut st).1 ≠ .truncated) :
    (endOfFile lt cut st).2.2 = none := by
  unfold endOfFile at h ⊢
  split at h
  · rw [if_pos (by assumption)]
  · rw [if_neg (by assumption)]
    exact unexpectedEof_cut h

/-- Only a file that is reported as truncated is cut. -/
theorem readAof_cut {lt : Bool} {xs : List D} {d : δ}
    (h : (readAof lt xs d).1 ≠ .truncated) : (readAof lt xs d).2.2 = none := by
  unfold readAof at h ⊢
  dsimp only at h ⊢
  split
  · rfl
  · next hne =>
      rw [if_neg hne] at h
      cases htail : (AofFormat.parse xs).2 with
      | bad => rfl
      | short =>
          rw [htail] at h
          exact unexpectedEof_cut h
      | eof =>
          rw [htail] at h
          exact endOfFile_cut h
      | torn =>
          rw [htail] at h
          exact endOfFile_cut h

/-- A base file loads to its dataset. -/
theorem readAof_base (lt : Bool) (d d' : δ) (upto : Nat) :
    readAof lt (AofFormat.enc (.base d upto) : List D) d' = (.ok, d, none) := by
  unfold readAof
  rw [if_neg (AofFormat.enc_ne_nil _), AofFormat.parse_base]
  rfl

theorem loadSingleAppendOnlyFile_congr (lt : Bool) (name : String) (d : δ) {dk dk' : Disk D}
    (h : dk'.fs.data (.aof name) = dk.fs.data (.aof name)) :
    (loadSingleAppendOnlyFile lt name d dk').1 = (loadSingleAppendOnlyFile lt name d dk).1 ∧
      (loadSingleAppendOnlyFile lt name d dk').2.1 =
        (loadSingleAppendOnlyFile lt name d dk).2.1 := by
  unfold loadSingleAppendOnlyFile
  rw [h]
  split <;> exact ⟨rfl, rfl⟩

/-- The disk stays as it is unless the file is truncated. -/
theorem loadSingleAppendOnlyFile_disk {lt : Bool} {name : String} {d : δ} {dk : Disk D}
    (h : (loadSingleAppendOnlyFile lt name d dk).1 ≠ .truncated) :
    (loadSingleAppendOnlyFile lt name d dk).2.2 = dk := by
  unfold loadSingleAppendOnlyFile at h ⊢
  split
  · rfl
  · next xs hdata =>
      rw [hdata] at h
      show dk.cut name _ = dk
      rw [readAof_cut h]
      rfl

theorem loadFiles_congr (lt : Bool) (names : List String) (d : δ) {dk dk' : Disk D}
    (h : ∀ n ∈ names, dk'.fs.data (.aof n) = dk.fs.data (.aof n)) :
    (loadFiles lt names d dk').1 = (loadFiles lt names d dk).1 ∧
      (loadFiles lt names d dk').2.1 = (loadFiles lt names d dk).2.1 := by
  induction names generalizing d with
  | nil => exact ⟨rfl, rfl⟩
  | cons n names ih =>
      have hrest := fun d => ih d fun m hm => h m (List.mem_cons_of_mem n hm)
      obtain ⟨hst, hd⟩ := loadSingleAppendOnlyFile_congr lt n d (h n List.mem_cons_self)
      have hdisk := @loadSingleAppendOnlyFile_disk _ _ _ _ _ lt n d dk
      have hdisk' := @loadSingleAppendOnlyFile_disk _ _ _ _ _ lt n d dk'
      unfold loadFiles
      generalize loadSingleAppendOnlyFile lt n d dk = r at *
      generalize loadSingleAppendOnlyFile lt n d dk' = r' at *
      obtain ⟨st, d₁, dk₁⟩ := r
      obtain ⟨st', d₁', dk₁'⟩ := r'
      dsimp only at hst hd hdisk hdisk'
      subst hst hd
      cases st' with
      | failed => exact ⟨rfl, rfl⟩
      | truncated =>
          dsimp only
          split <;> exact ⟨rfl, rfl⟩
      | ok => rw [hdisk nofun, hdisk' nofun]; exact hrest d₁'
      | notExist => rw [hdisk nofun, hdisk' nofun]; exact hrest d₁'
      | empty => rw [hdisk nofun, hdisk' nofun]; exact hrest d₁'

theorem loadAppendOnlyFiles_congr (lt : Bool) (am : AofManifest String) {dk dk' : Disk D}
    (h : ∀ n ∈ am.loadNames, dk'.fs.data (.aof n) = dk.fs.data (.aof n)) :
    (loadAppendOnlyFiles lt am dk').1 = (loadAppendOnlyFiles lt am dk).1 ∧
      (loadAppendOnlyFiles lt am dk').2.1 = (loadAppendOnlyFiles lt am dk).2.1 := by
  have hany : (am.loadNames.any fun n => (dk'.fs.data (.aof n)).isNone) =
      am.loadNames.any fun n => (dk.fs.data (.aof n)).isNone := by
    rw [Bool.eq_iff_iff, List.any_eq_true, List.any_eq_true]
    constructor <;> rintro ⟨n, hn, hnone⟩
    · exact ⟨n, hn, h n hn ▸ hnone⟩
    · exact ⟨n, hn, (h n hn).symm ▸ hnone⟩
  have hsize : loadSize am.loadNames dk' = loadSize am.loadNames dk := by
    unfold loadSize
    rw [List.map_congr_left fun n hn => by rw [h n hn]]
  unfold loadAppendOnlyFiles
  rw [hany, hsize]
  split
  · exact ⟨rfl, rfl⟩
  · split
    · exact ⟨rfl, rfl⟩
    · split
      · exact ⟨rfl, rfl⟩
      · exact loadFiles_congr lt am.loadNames _ h

end WasiPorts.Redis.Aof
