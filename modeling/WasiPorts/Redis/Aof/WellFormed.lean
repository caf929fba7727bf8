import Mathlib
import WasiPorts.Redis.Aof.Manifest

/-!
# Well-formed manifests

The names the server makes up for BASE and INCR files are pairwise distinct and differ from those of
the manifest and of its temporary files, and the sequence number can be read off the name. A manifest
is `WellNamed` if its names are distinct and none of them is one that the server may generate later.

A manifest is `Ordered` if its entries are in the lists of their types and its sequence numbers
are those of its last BASE and INCR entries. This is what loading a manifest file gives, and an
ordered manifest comes back from its file as it was (`loadManifest_lines`).

The operations on manifests keep both.
-/

namespace WasiPorts.Redis.Aof

variable (cf : Conf)

/-! ## Names -/

/-- The names that the server uses for its own files end otherwise than the generated ones. -/
theorem Conf.incrName_notMem_own (s : Int) : cf.incrName s ∉ cf.ownNames := by
  have hend : ∀ n, cf.incrName s = n →
      n.toList.reverse.take 1 = (cf.incrName s).toList.reverse.take 1 := by
    rintro n rfl
    rfl
  simp only [ownNames, tempNames, List.mem_cons, List.not_mem_nil, or_false]
  rintro (h | h | h) <;>
    simpa [incrName, manifestName, tempManifestName, tempIncrAofName] using hend _ h

theorem Conf.baseName_notMem_own (s : Int) : cf.baseName s ∉ cf.ownNames := by
  have hend : ∀ n, cf.baseName s = n →
      n.toList.reverse.take 1 = (cf.baseName s).toList.reverse.take 1 := by
    rintro n rfl
    rfl
  simp only [ownNames, tempNames, List.mem_cons, List.not_mem_nil, or_false]
  cases hp : cf.aofUseRdbPreamble <;> rintro (h | h | h) <;>
    simpa [baseName, manifestName, tempManifestName, tempIncrAofName, hp] using hend _ h

theorem Conf.tempIncr_mem_temp : cf.tempIncrAofName ∈ cf.tempNames := by simp [tempNames]

theorem Conf.tempManifest_mem_temp : cf.tempManifestName ∈ cf.tempNames := by simp [tempNames]

theorem Conf.tempIncr_mem_own : cf.tempIncrAofName ∈ cf.ownNames :=
  List.mem_cons_of_mem _ cf.tempIncr_mem_temp

theorem Conf.tempManifest_mem_own : cf.tempManifestName ∈ cf.ownNames :=
  List.mem_cons_of_mem _ cf.tempManifest_mem_temp

theorem Conf.incrName_ne_own {n : String} (hn : n ∈ cf.ownNames) (s : Int) : cf.incrName s ≠ n :=
  fun h => cf.incrName_notMem_own s (h ▸ hn)

theorem Conf.baseName_ne_own {n : String} (hn : n ∈ cf.ownNames) (s : Int) : cf.baseName s ≠ n :=
  fun h => cf.baseName_notMem_own s (h ▸ hn)

theorem Conf.baseName_ne_incrName (s t : Int) : cf.baseName s ≠ cf.incrName t := by
  intro h
  have hend := congrArg (fun n => n.toList.reverse.take 9) h
  cases hp : cf.aofUseRdbPreamble <;> simp [baseName, incrName, hp] at hend

theorem Conf.incrName_inj {s t : Int} (h : cf.incrName s = cf.incrName t) : s = t := by
  simp only [incrName, String.append_left_inj, String.append_right_inj] at h
  exact Int.repr_injective h

theorem Conf.baseName_inj {s t : Int} (h : cf.baseName s = cf.baseName t) : s = t := by
  simp only [baseName, String.append_left_inj, String.append_right_inj] at h
  exact Int.repr_injective h

/-! ## Well-named manifests -/

/-- The names are distinct, and the server generates none of them again. -/
structure WellNamed (am : AofManifest String) : Prop where
  nodup : am.names.Nodup
  base : ∀ s, am.currBaseFileSeq < s → cf.baseName s ∉ am.names
  incr : ∀ s, am.currIncrFileSeq < s → cf.incrName s ∉ am.names
  own : ∀ n ∈ cf.ownNames, n ∉ am.names
  seq : 0 ≤ am.currBaseFileSeq

variable {cf} {am : AofManifest String}

namespace AofManifest

theorem names_pushIncr (am : AofManifest String) (name : String) :
    (am.pushIncr name).names = am.names ++ [name] := by
  simp [names, lines, pushIncr]

/-- The names of the entries, in the order of their lists. -/
theorem names_eq (am : AofManifest String) :
    am.names = am.baseAofInfo.toList.map (·.fileName) ++ am.historyAofList.map (·.fileName) ++
      am.incrAofList.map (·.fileName) := by
  simp [names, lines]

theorem map_toHist_fileName (ais : List (AofInfo String)) :
    (ais.map (·.toHist)).map (·.fileName) = ais.map (·.fileName) := by
  simp [AofInfo.toHist]

/-- The old BASE entry stays in the manifest, as a HISTORY one. -/
theorem names_pushBase (am : AofManifest String) (name : String) :
    (am.pushBase name).names = name :: am.names := by
  cases hb : am.baseAofInfo <;> simp [names, lines, pushBase, hb, AofInfo.toHist]

end AofManifest

/-- Entries only move. -/
theorem markRewrittenIncrAofAsHistory_names_perm (fdOpen : Bool) (am : AofManifest String) :
    (markRewrittenIncrAofAsHistory fdOpen am).names.Perm am.names := by
  unfold markRewrittenIncrAofAsHistory
  split
  · exact List.Perm.refl _
  · next hne =>
      -- the moved and the kept entries make up the old list
      have hparts : (if fdOpen then am.incrAofList.dropLast else am.incrAofList) ++
          (if fdOpen then am.incrAofList.getLast?.toList else []) = am.incrAofList := by
        cases fdOpen with
        | false => simp
        | true => simp [List.getLast?_eq_getLast_of_ne_nil hne, List.dropLast_append_getLast hne]
      have hincr := congrArg (List.map (·.fileName)) hparts
      rw [List.map_append] at hincr
      rw [AofManifest.names_eq, AofManifest.names_eq, ← hincr]
      simp only [List.map_append, AofManifest.map_toHist_fileName, List.append_assoc]
      refine List.Perm.append_left _ ?_
      rw [← List.append_assoc, ← List.append_assoc]
      exact List.Perm.append_right _ List.perm_append_comm

namespace WellNamed

/-- A manifest with fewer names, or the same in another order. -/
theorem of_subset {am' : AofManifest String} (h : WellNamed cf am) (hnodup : am'.names.Nodup)
    (hsub : ∀ n ∈ am'.names, n ∈ am.names) (hbase : am'.currBaseFileSeq = am.currBaseFileSeq)
    (hincr : am'.currIncrFileSeq = am.currIncrFileSeq) : WellNamed cf am' where
  nodup := hnodup
  base := fun s hs hmem => h.base s (hbase ▸ hs) (hsub _ hmem)
  incr := fun s hs hmem => h.incr s (hincr ▸ hs) (hsub _ hmem)
  own := fun n hn hmem => h.own n hn (hsub _ hmem)
  seq := hbase ▸ h.seq

theorem markRewritten (h : WellNamed cf am) (fdOpen : Bool) :
    WellNamed cf (markRewrittenIncrAofAsHistory fdOpen am) := by
  have hperm := markRewrittenIncrAofAsHistory_names_perm fdOpen am
  have hseq : (markRewrittenIncrAofAsHistory fdOpen am).currBaseFileSeq = am.currBaseFileSeq ∧
      (markRewrittenIncrAofAsHistory fdOpen am).currIncrFileSeq = am.currIncrFileSeq := by
    unfold markRewrittenIncrAofAsHistory
    split <;> exact ⟨rfl, rfl⟩
  exact h.of_subset (hperm.nodup_iff.mpr h.nodup) (fun n hn => hperm.mem_iff.mp hn) hseq.1 hseq.2

theorem pushIncr (h : WellNamed cf am) :
    WellNamed cf (am.pushIncr (cf.incrName (am.currIncrFileSeq + 1))) := by
  constructor
  · rw [AofManifest.names_pushIncr, List.nodup_append]
    refine ⟨h.nodup, List.nodup_singleton _, ?_⟩
    intro a ha b hb hab
    rw [List.mem_singleton] at hb
    exact h.incr _ (Int.lt_succ _) (hb ▸ hab ▸ ha)
  · intro s hs hmem
    rw [AofManifest.names_pushIncr, List.mem_append, List.mem_singleton] at hmem
    obtain hmem | hmem := hmem
    · exact h.base s hs hmem
    · exact cf.baseName_ne_incrName _ _ hmem
  · intro s hs hmem
    have hs' : am.currIncrFileSeq + 1 < s := hs
    rw [AofManifest.names_pushIncr, List.mem_append, List.mem_singleton] at hmem
    obtain hmem | hmem := hmem
    · exact h.incr s (by omega) hmem
    · have := cf.incrName_inj hmem
      omega
  · intro n hn hmem
    rw [AofManifest.names_pushIncr, List.mem_append, List.mem_singleton] at hmem
    obtain hmem | hmem := hmem
    · exact h.own n hn hmem
    · exact cf.incrName_ne_own hn _ hmem.symm
  · exact h.seq

theorem pushBase (h : WellNamed cf am) :
    WellNamed cf (am.pushBase (cf.baseName (am.currBaseFileSeq + 1))) := by
  constructor
  · rw [AofManifest.names_pushBase, List.nodup_cons]
    exact ⟨h.base _ (Int.lt_succ _), h.nodup⟩
  · intro s hs hmem
    have hs' : am.currBaseFileSeq + 1 < s := hs
    rw [AofManifest.names_pushBase, List.mem_cons] at hmem
    obtain hmem | hmem := hmem
    · have := cf.baseName_inj hmem
      omega
    · exact h.base s (by omega) hmem
  · intro s hs hmem
    rw [AofManifest.names_pushBase, List.mem_cons] at hmem
    obtain hmem | hmem := hmem
    · exact cf.baseName_ne_incrName _ _ hmem.symm
    · exact h.incr s hs hmem
  · intro n hn hmem
    rw [AofManifest.names_pushBase, List.mem_cons] at hmem
    obtain hmem | hmem := hmem
    · exact cf.baseName_ne_own hn _ hmem.symm
    · exact h.own n hn hmem
  · have := h.seq
    show 0 ≤ am.currBaseFileSeq + 1
    omega

end WellNamed

/-! ## Ordered manifests -/

/-- The sequence number of the last entry, `d` if there is none. -/
def lastSeq (d : Int) (ais : List (AofInfo String)) : Int := (ais.getLast?.map (·.fileSeq)).getD d

@[simp] theorem lastSeq_nil (d : Int) : lastSeq d [] = d := rfl

@[simp] theorem lastSeq_concat (d : Int) (ais : List (AofInfo String)) (ai : AofInfo String) :
    lastSeq d (ais ++ [ai]) = ai.fileSeq := by
  simp [lastSeq]

theorem lastSeq_cons (d : Int) (ai : AofInfo String) (ais : List (AofInfo String)) :
    lastSeq d (ai :: ais) = lastSeq ai.fileSeq ais := by
  cases ais using List.reverseRecOn with
  | nil => rfl
  | append_singleton ais ai' => rw [← List.cons_append, lastSeq_concat, lastSeq_concat]

/-- Entries are in the lists of their types, and the sequence numbers of INCR entries go up. -/
structure Ordered (am : AofManifest String) : Prop where
  base : ∀ ai, am.baseAofInfo = some ai →
    ai.fileType = .base ∧ ai.fileSeq ≠ 0 ∧ am.currBaseFileSeq = ai.fileSeq
  noBase : am.baseAofInfo = none → am.currBaseFileSeq = 0
  hist : ∀ ai ∈ am.historyAofList, ai.fileType = .hist ∧ ai.fileSeq ≠ 0
  incr : ∀ ai ∈ am.incrAofList, ai.fileType = .incr ∧ 0 < ai.fileSeq ∧
    ai.fileSeq ≤ am.currIncrFileSeq
  seqs : am.incrAofList.Pairwise (·.fileSeq < ·.fileSeq)
  last : am.currIncrFileSeq = lastSeq 0 am.incrAofList

theorem ordered_create : Ordered .create :=
  ⟨nofun, fun _ => rfl, nofun, nofun, List.Pairwise.nil, rfl⟩

namespace Ordered

theorem currIncr_nonneg (h : Ordered am) : 0 ≤ am.currIncrFileSeq := by
  rw [h.last, lastSeq]
  cases hl : am.incrAofList.getLast? with
  | none => simp
  | some ai =>
      have := (h.incr ai (List.mem_of_getLast? hl)).2.1
      simp
      omega

/-- One more INCR entry, with a higher sequence number. -/
theorem addIncr (h : Ordered am) (ai : AofInfo String) (htype : ai.fileType = .incr)
    (hseq : am.currIncrFileSeq < ai.fileSeq) (dirty : Bool) :
    Ordered { am with
      incrAofList := am.incrAofList ++ [ai]
      currIncrFileSeq := ai.fileSeq
      dirty := dirty } where
  base := h.base
  noBase := h.noBase
  hist := h.hist
  incr := by
    intro ai' hai'
    have hnonneg := h.currIncr_nonneg
    obtain hmem | rfl : ai' ∈ am.incrAofList ∨ ai' = ai := by simpa using hai'
    · have := h.incr ai' hmem
      exact ⟨this.1, this.2.1, by dsimp only; omega⟩
    · exact ⟨htype, by omega, Int.le_refl _⟩
  seqs := by
    rw [List.pairwise_append]
    refine ⟨h.seqs, List.pairwise_singleton _ _, ?_⟩
    intro a ha b hb
    rw [List.mem_singleton] at hb
    have := (h.incr a ha).2.2
    rw [hb]
    omega
  last := by simp

theorem pushIncr (h : Ordered am) (name : String) : Ordered (am.pushIncr name) :=
  h.addIncr ⟨name, am.currIncrFileSeq + 1, .incr⟩ rfl (Int.lt_succ _) true

theorem pushBase (h : Ordered am) (hseq : am.currBaseFileSeq + 1 ≠ 0) (name : String) :
    Ordered (am.pushBase name) where
  base := by
    intro ai hai
    obtain rfl : ⟨name, am.currBaseFileSeq + 1, .base⟩ = ai := by
      simpa [AofManifest.pushBase] using hai
    exact ⟨rfl, hseq, rfl⟩
  noBase := nofun
  hist := by
    intro ai hai
    obtain ⟨b, hb, rfl⟩ | hmem : (∃ b, am.baseAofInfo = some b ∧ b.toHist = ai) ∨
        ai ∈ am.historyAofList := by
      simpa [AofManifest.pushBase] using hai
    · exact ⟨rfl, (h.base b hb).2.1⟩
    · exact h.hist ai hmem
  incr := h.incr
  seqs := h.seqs
  last := h.last

theorem markRewritten (h : Ordered am) (fdOpen : Bool)
    (hopen : am.incrAofList ≠ [] → fdOpen = true) :
    Ordered (markRewrittenIncrAofAsHistory fdOpen am) := by
  unfold markRewrittenIncrAofAsHistory
  split
  · exact h
  · next hne =>
      rw [hopen hne]
      simp only [if_true]
      obtain ⟨init, ai, hsplit⟩ := List.eq_nil_or_concat am.incrAofList |>.resolve_left hne
      have hlast : am.incrAofList.getLast?.toList = [ai] := by simp [hsplit]
      refine ⟨h.base, h.noBase, ?_, ?_, ?_, ?_⟩
      · intro ai' hai'
        rw [List.mem_append] at hai'
        obtain hmoved | hold := hai'
        · obtain ⟨b, hb, rfl⟩ := List.mem_map.mp hmoved
          have := (h.incr b (List.dropLast_subset _ hb)).2.1
          exact ⟨rfl, by show b.fileSeq ≠ 0; omega⟩
        · exact h.hist ai' hold
      · intro ai' hai'
        rw [hlast, List.mem_singleton] at hai'
        exact h.incr ai' (by simp [hai', hsplit])
      · dsimp only
        rw [hlast]
        exact List.pairwise_singleton _ _
      · show am.currIncrFileSeq = lastSeq 0 am.incrAofList.getLast?.toList
        rw [hlast, h.last, hsplit]
        simp [lastSeq]

theorem dropHistory (h : Ordered am) (dirty : Bool) :
    Ordered { am with historyAofList := [], dirty := dirty } :=
  ⟨h.base, h.noBase, nofun, h.incr, h.seqs, h.last⟩

theorem setDirty (h : Ordered am) (dirty : Bool) : Ordered { am with dirty := dirty } :=
  ⟨h.base, h.noBase, h.hist, h.incr, h.seqs, h.last⟩

end Ordered

/-! ## Manifest files -/

/-- What a line that is accepted does to the manifest. -/
theorem loadLine_some {am' : AofManifest String} {ai : AofInfo String} (h : Ordered am)
    (hload : loadLine am ai = some am') :
    Ordered am' ∧ am'.lines.Perm (am.lines ++ [ai]) ∧ am'.dirty = am.dirty := by
  unfold loadLine at hload
  split at hload
  · cases hload
  · next hseq =>
      split at hload
      · -- a second BASE line is refused
        next htype =>
          cases hbase : am.baseAofInfo with
          | some b => simp [hbase] at hload
          | none =>
              simp only [hbase, Option.isSome_none, Bool.false_eq_true, if_false,
                Option.some.injEq] at hload
              subst hload
              refine ⟨⟨?_, nofun, h.hist, h.incr, h.seqs, h.last⟩, ?_, rfl⟩
              · intro b hb
                obtain rfl : ai = b := by simpa using hb
                exact ⟨htype, hseq, rfl⟩
              · simp only [AofManifest.lines, hbase, Option.toList_some, Option.toList_none,
                  List.nil_append, List.append_assoc]
                rw [← List.append_assoc am.historyAofList]
                exact List.perm_append_comm
      · next htype =>
          rw [Option.some.injEq] at hload
          subst hload
          refine ⟨⟨h.base, h.noBase, ?_, h.incr, h.seqs, h.last⟩, ?_, rfl⟩
          · intro b hb
            obtain hmem | rfl : b ∈ am.historyAofList ∨ b = ai := by simpa using hb
            · exact h.hist b hmem
            · exact ⟨htype, hseq⟩
          · simp only [AofManifest.lines, List.append_assoc]
            refine List.Perm.append_left _ (List.Perm.append_left _ ?_)
            exact List.perm_append_comm
      · next htype =>
          split at hload
          · cases hload
          · next hlt =>
              rw [Option.some.injEq] at hload
              subst hload
              refine ⟨h.addIncr ai htype (by omega) am.dirty, ?_, rfl⟩
              simp [AofManifest.lines]

theorem foldlM_loadLine {lines : List (AofInfo String)} {am' : AofManifest String}
    (h : Ordered am) (hload : lines.foldlM loadLine am = some am') :
    Ordered am' ∧ am'.lines.Perm (am.lines ++ lines) ∧ am'.dirty = am.dirty := by
  induction lines generalizing am with
  | nil =>
      obtain rfl : am = am' := by simpa using hload
      exact ⟨h, by simp, rfl⟩
  | cons ai lines ih =>
      obtain ⟨am₁, hline, hrest⟩ : ∃ am₁, loadLine am ai = some am₁ ∧
          lines.foldlM loadLine am₁ = some am' := by
        simpa [Option.bind_eq_some_iff] using hload
      obtain ⟨h₁, hperm₁, hdirty₁⟩ := loadLine_some h hline
      obtain ⟨h', hperm, hdirty⟩ := ih h₁ hrest
      refine ⟨h', ?_, hdirty.trans hdirty₁⟩
      refine hperm.trans ?_
      have := hperm₁.append_right lines
      simpa using this

/-- What loading a manifest file gives. -/
theorem loadManifest_some {lines : List (AofInfo String)} (hload : loadManifest lines = some am) :
    Ordered am ∧ am.lines.Perm lines ∧ am.dirty = false := by
  unfold loadManifest at hload
  split at hload
  · cases hload
  · exact foldlM_loadLine ordered_create hload

theorem foldlM_loadLine_hist (ais : List (AofInfo String)) (am : AofManifest String)
    (h : ∀ ai ∈ ais, ai.fileType = .hist ∧ ai.fileSeq ≠ 0) :
    ais.foldlM loadLine am = some { am with historyAofList := am.historyAofList ++ ais } := by
  induction ais generalizing am with
  | nil => simp
  | cons ai ais ih =>
      have hai := h ai List.mem_cons_self
      have hline : loadLine am ai =
          some { am with historyAofList := am.historyAofList ++ [ai] } := by
        simp [loadLine, hai.1, hai.2]
      rw [List.foldlM_cons, hline]
      show List.foldlM loadLine _ ais = _
      rw [ih _ fun b hb => h b (List.mem_cons_of_mem _ hb)]
      simp

theorem foldlM_loadLine_incr (ais : List (AofInfo String)) (am : AofManifest String)
    (hnonneg : 0 ≤ am.currIncrFileSeq)
    (htype : ∀ ai ∈ ais, ai.fileType = .incr ∧ am.currIncrFileSeq < ai.fileSeq)
    (hseqs : ais.Pairwise (·.fileSeq < ·.fileSeq)) :
    ais.foldlM loadLine am = some { am with
      incrAofList := am.incrAofList ++ ais
      currIncrFileSeq := lastSeq am.currIncrFileSeq ais } := by
  induction ais generalizing am with
  | nil => simp
  | cons ai ais ih =>
      have hai := htype ai List.mem_cons_self
      have hne : ai.fileSeq ≠ 0 := by omega
      have hgt : ¬ ai.fileSeq ≤ am.currIncrFileSeq := by omega
      have hline : loadLine am ai = some { am with
          incrAofList := am.incrAofList ++ [ai]
          currIncrFileSeq := ai.fileSeq } := by
        simp [loadLine, hai.1, hne, hgt]
      rw [List.pairwise_cons] at hseqs
      rw [List.foldlM_cons, hline]
      show List.foldlM loadLine _ ais = _
      rw [ih]
      · simp [lastSeq_cons]
      · dsimp only
        omega
      · intro b hb
        exact ⟨(htype b (List.mem_cons_of_mem _ hb)).1, hseqs.1 b hb⟩
      · exact hseqs.2

/-- An ordered manifest comes back from its file. -/
theorem loadManifest_lines (h : Ordered am) (hne : am.lines ≠ []) :
    loadManifest am.lines = some { am with dirty := false } := by
  have hbase : am.baseAofInfo.toList.foldlM loadLine .create = some { AofManifest.create with
      baseAofInfo := am.baseAofInfo
      currBaseFileSeq := am.currBaseFileSeq } := by
    cases hb : am.baseAofInfo with
    | none => simp [AofManifest.create, h.noBase hb]
    | some ai =>
        obtain ⟨htype, hseq, hcurr⟩ := h.base ai hb
        simp [loadLine, htype, hseq, AofManifest.create, hcurr]
  unfold loadManifest
  rw [if_neg hne]
  unfold AofManifest.lines
  rw [List.foldlM_append, List.foldlM_append, hbase]
  show (am.historyAofList.foldlM loadLine _).bind _ = _
  rw [foldlM_loadLine_hist _ _ h.hist]
  show am.incrAofList.foldlM loadLine _ = _
  rw [foldlM_loadLine_incr]
  · simp [AofManifest.create, h.last]
  · exact Int.le_refl 0
  · intro ai hai
    exact ⟨(h.incr ai hai).1, (h.incr ai hai).2.1⟩
  · exact h.seqs

end WasiPorts.Redis.Aof
