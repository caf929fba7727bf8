import Mathlib

/-!
# Patching the generated Makefile

`patch-objs.py` adds `nginx_stubs.o` to `objs/Makefile`: a compile rule after the `LINK` line, an entry
after the first line of the dependencies of `objs/nginx`, and an entry after the first line of the link
command. Each step is guarded, so that it is not done twice.

The guard of the last step looks for the entry with a blank before it, and the entry that is inserted
starts with a tab. So a run that adds the link entry is followed by a run that adds it again
(`patch_never_settles`).

A text is what `open(p).read()` gives, `none` is a run that ends with an exception.
-/

namespace WasiPorts.Nginx.PatchObjs

abbrev Text := List Char

/-! ## Python's text functions -/

/-- `s.replace(old, new, 1)`. -/
def replaceFirst (old new : Text) : Text → Text
  | [] => []
  | c :: s =>
    if old <+: c :: s then new ++ (c :: s).drop old.length else c :: replaceFirst old new s

/-- `s.split('\n')`. -/
def lines (s : Text) : List Text := s.splitOn '\n'

/-- `ls[ls.index(l) + 1]`. -/
def lineAfter (l : Text) : List Text → Option Text
  | [] => none
  | l' :: ls => if l' = l then ls.head? else lineAfter l ls

/-! ## The script -/

def anchorLine : Text := "LINK =\t$(CC)".toList

/-- `anchor`. -/
def anchor : Text := anchorLine ++ ['\n']

/-- The compile rule; `stubs` is the path of `nginx_stubs.c`. -/
def rule (stubs : Text) : Text :=
  "\nobjs/nginx_stubs.o:\t".toList ++ stubs ++ "\n\t$(CC) -c $(CFLAGS) -o $@ $<".toList ++ ['\n']

def depLine : Text := "objs/nginx:\tobjs/src/core/nginx.o \\".toList

/-- `dep`. -/
def dep : Text := depLine ++ ['\n']

/-- `cmd.strip('\n')`. -/
def cmdLine : Text := "\t$(LINK) -o objs/nginx \\".toList

/-- `cmd`. -/
def cmd : Text := cmdLine ++ ['\n']

def entryLine : Text := "\tobjs/nginx_stubs.o \\".toList

/-- The entry of `nginx_stubs.o` in the dependencies and in the link command. -/
def entry : Text := entryLine ++ ['\n']

/-- What the guard of the first step looks for. -/
def ruleMark : Text := "objs/nginx_stubs.o:".toList

/-- What the guard of the last step looks for. -/
def linkMark : Text := " objs/nginx_stubs.o".toList

/-- `text` inserted after an anchor, unless `mark` is there. -/
def addOnce (after mark text s : Text) : Option Text :=
  if after <:+: s then
    some (if ¬ mark <:+: s then replaceFirst after (after ++ text) s else s)
  else none

/-- The compile rule. -/
def addRule (stubs : Text) : Text → Option Text := addOnce anchor ruleMark (rule stubs)

/-- The dependency. -/
def addDependency : Text → Option Text := addOnce dep entry entry

/-- The link command. -/
def addLink (s : Text) : Option Text :=
  if cmd <:+: s then
    match lineAfter cmdLine (lines s) with
    | none => none
    | some next =>
      some (if ¬ linkMark <:+: next then replaceFirst cmd (cmd ++ entry) s else s)
  else none

/-- `patch-objs.py`. -/
def patch (stubs s : Text) : Option Text := do
  let s ← addRule stubs s
  let s ← addDependency s
  addLink s

/-- `k` further runs. -/
def patches (stubs : Text) : Nat → Text → Option Text
  | 0, s => some s
  | k + 1, s => (patch stubs s).bind (patches stubs k)

/-! ## What runs of the script should do -/

/-- `t` is `s` with `text` inserted right after an occurrence of `after`. -/
def InsertedAfter (after text s t : Text) : Prop :=
  ∃ pre post, s = pre ++ after ++ post ∧ t = pre ++ after ++ (text ++ post)

/-- Rule, dependency and link entry are added once each, and nothing else changes. -/
def AddsOnce (stubs s t : Text) : Prop :=
  ∃ s₁ s₂, InsertedAfter anchor (rule stubs) s s₁ ∧ InsertedAfter dep entry s₁ s₂ ∧
    InsertedAfter cmd entry s₂ t

/-- The three anchors; the link command is a line of its own, ended by a newline. -/
structure HasAnchors (s : Text) : Prop where
  anchor : anchor <:+: s
  dep : dep <:+: s
  cmd : cmdLine ∈ (lines s).dropLast

/-! ## Insertions -/

variable {after text s t : Text}

theorem InsertedAfter.length (h : InsertedAfter after text s t) :
    t.length = s.length + text.length := by
  obtain ⟨pre, post, rfl, rfl⟩ := h
  simp only [List.length_append]
  omega

/-- Replacing an anchor by the anchor and more inserts after it. -/
theorem replaceFirst_inserted (hne : after ≠ []) (h : after <:+: s) :
    InsertedAfter after text s (replaceFirst after (after ++ text) s) := by
  induction s with
  | nil => exact absurd (List.infix_nil.mp h) hne
  | cons c s ih =>
      rw [replaceFirst]
      split
      · next hpre =>
          obtain ⟨post, hpost⟩ := hpre
          refine ⟨[], post, hpost.symm, ?_⟩
          rw [← hpost, List.drop_left, List.nil_append, List.append_assoc]
      · next hpre =>
          have hrest : after <:+: s := (List.infix_cons_iff.mp h).resolve_left hpre
          obtain ⟨pre, post, hs, ht⟩ := ih hrest
          exact ⟨c :: pre, post, by rw [hs]; rfl, by rw [ht]; rfl⟩

theorem lineAfter_append_of_mem {l : Text} {as : List Text} (h : l ∈ as) (bs : List Text) :
    lineAfter l (as ++ bs) = (lineAfter l as).or bs.head? := by
  induction as with
  | nil => cases h
  | cons a as ih =>
      rw [List.cons_append, lineAfter, lineAfter]
      split
      · rw [List.head?_append]
      · next hne => exact ih ((List.mem_cons.mp h).resolve_left (Ne.symm hne))

theorem lineAfter_append_of_notMem {l : Text} {as : List Text} (h : l ∉ as) (bs : List Text) :
    lineAfter l (as ++ bs) = lineAfter l bs := by
  induction as with
  | nil => rfl
  | cons a as ih =>
      rw [List.mem_cons, not_or] at h
      rw [List.cons_append, lineAfter, if_neg (Ne.symm h.1), ih h.2]

/-- A text is cut at every newline. -/
theorem lines_append (a b : Text) : lines (a ++ '\n' :: b) = lines a ++ lines b :=
  List.splitOnP_append_cons a b (beq_self_eq_true '\n')

theorem lines_ne_nil (a : Text) : lines a ≠ [] := List.splitOn_ne_nil _ _

theorem lines_of_notMem {a : Text} (h : '\n' ∉ a) : lines a = [a] := by
  apply List.splitOnP_eq_singleton
  intro c hc
  exact beq_eq_false_iff_ne.mpr fun heq => h (heq ▸ hc)

/-- The new line after the link command is the inserted entry, or the line that followed it before. -/
theorem lineAfter_inserted (h : InsertedAfter cmd entry s t) {next : Text}
    (hnext : lineAfter cmdLine (lines s) = some next) :
    lineAfter cmdLine (lines t) = some next ∨ lineAfter cmdLine (lines t) = some entryLine := by
  obtain ⟨pre, post, rfl, rfl⟩ := h
  have hs : lines (pre ++ cmd ++ post) = lines (pre ++ cmdLine) ++ lines post := by
    rw [← lines_append, cmd, List.append_assoc, List.append_assoc, List.append_assoc]
    rfl
  have hentry : lines entryLine = [entryLine] := lines_of_notMem (by decide)
  have ht : lines (pre ++ cmd ++ (entry ++ post)) =
      lines (pre ++ cmdLine) ++ (entryLine :: lines post) := by
    rw [← List.singleton_append, ← hentry, ← lines_append, ← lines_append, cmd, entry]
    simp only [List.append_assoc]
    rfl
  rw [hs] at hnext
  rw [ht]
  by_cases hmem : cmdLine ∈ lines (pre ++ cmdLine)
  · rw [lineAfter_append_of_mem hmem] at hnext ⊢
    cases hbefore : lineAfter cmdLine (lines (pre ++ cmdLine)) with
    | none => exact .inr rfl
    | some line =>
        rw [hbefore] at hnext
        exact .inl hnext
  · have hne : entryLine ≠ cmdLine := by decide
    rw [lineAfter_append_of_notMem hmem] at hnext ⊢
    rw [lineAfter, if_neg hne]
    exact .inl hnext

/-! ## The steps -/

theorem addOnce_cases {mark : Text} (hne : after ≠ []) (h : addOnce after mark text s = some t) :
    InsertedAfter after text s t ∨ t = s := by
  unfold addOnce at h
  split at h
  · next hafter =>
      cases h
      split
      · exact .inl (replaceFirst_inserted hne hafter)
      · exact .inr rfl
  · cases h

/-- The last step adds an entry exactly if it does not see one. -/
theorem addLink_cases (h : addLink s = some t) :
    ∃ next, lineAfter cmdLine (lines s) = some next ∧
      (¬ linkMark <:+: next ∧ InsertedAfter cmd entry s t ∨ linkMark <:+: next ∧ t = s) := by
  unfold addLink at h
  split at h
  · next hcmd =>
      split at h
      · cases h
      · next next hnext =>
          cases h
          refine ⟨next, hnext, ?_⟩
          split
          · next hmark => exact .inl ⟨hmark, replaceFirst_inserted (by decide) hcmd⟩
          · next hmark => exact .inr ⟨Classical.not_not.mp hmark, rfl⟩
  · cases h

theorem patch_some {stubs : Text} (h : patch stubs s = some t) :
    ∃ s₁ s₂, addRule stubs s = some s₁ ∧ addDependency s₁ = some s₂ ∧ addLink s₂ = some t := by
  unfold patch at h
  obtain ⟨s₁, h₁, h⟩ := Option.bind_eq_some_iff.mp h
  obtain ⟨s₂, h₂, h⟩ := Option.bind_eq_some_iff.mp h
  exact ⟨s₁, s₂, h₁, h₂, h⟩

/-! ## The anchors stay

All insertions are of whole lines and start after a newline. So they go between two lines. -/

/-- An insertion of lines goes between two lines. -/
theorem lines_inserted {a b : Text} (h : InsertedAfter (a ++ ['\n']) (b ++ ['\n']) s t) :
    ∃ before rest, rest ≠ [] ∧ lines s = before ++ rest ∧ lines t = before ++ (lines b ++ rest) := by
  obtain ⟨pre, post, rfl, rfl⟩ := h
  refine ⟨lines (pre ++ a), lines post, lines_ne_nil post, ?_, ?_⟩
  · rw [← lines_append]
    simp only [List.append_assoc, List.singleton_append]
  · rw [← lines_append, ← lines_append]
    simp only [List.append_assoc, List.singleton_append]

theorem cmdLine_inserted {a b : Text} (h : InsertedAfter (a ++ ['\n']) (b ++ ['\n']) s t)
    (hcmd : cmdLine ∈ (lines s).dropLast) : cmdLine ∈ (lines t).dropLast := by
  obtain ⟨before, rest, hne, hs, ht⟩ := lines_inserted h
  rw [hs, List.dropLast_append_of_ne_nil hne] at hcmd
  rw [ht, List.dropLast_append_of_ne_nil (by simp [hne]), List.dropLast_append_of_ne_nil hne]
  simp only [List.mem_append] at hcmd ⊢
  tauto

/-- A text without a newline but at its end is not torn apart. -/
theorem infix_inserted {a l : Text} (h : InsertedAfter (a ++ ['\n']) text s t) (hl : '\n' ∉ l)
    (hinside : l ++ ['\n'] <:+: s) : l ++ ['\n'] <:+: t := by
  obtain ⟨pre, post, rfl, rfl⟩ := h
  rcases List.infix_append_iff_ne_nil.mp hinside with
    hleft | hright | ⟨l₁, l₂, hne₁, hne₂, heq, ⟨u, hu⟩, -⟩
  · exact hleft.trans List.infix_append_left
  · exact (hright.trans List.infix_append_right).trans List.infix_append_right
  · -- the first part would end with the newline that only the whole text ends with
    exfalso
    have hlast : l₁.getLast? = some '\n' := by
      have := congrArg List.getLast? hu
      rwa [List.getLast?_append_of_ne_nil _ hne₁, ← List.append_assoc, List.getLast?_concat] at this
    have hmem : '\n' ∈ l₁ := List.mem_of_getLast? hlast
    have hl' : l = l₁ ++ l₂.dropLast := by
      have := congrArg List.dropLast heq
      rwa [List.dropLast_concat, List.dropLast_append_of_ne_nil hne₂] at this
    exact hl (hl' ▸ List.mem_append_left _ hmem)

theorem InsertedAfter.hasAnchors {a b : Text} (h : InsertedAfter (a ++ ['\n']) (b ++ ['\n']) s t)
    (hs : HasAnchors s) : HasAnchors t := by
  have hanchor : '\n' ∉ anchorLine := by decide
  have hdep : '\n' ∉ depLine := by decide
  exact ⟨infix_inserted h hanchor hs.anchor, infix_inserted h hdep hs.dep,
    cmdLine_inserted h hs.cmd⟩

/-- A line that is not the last one is in the text with its newline. -/
theorem line_infix {l : Text} (h : l ∈ (lines s).dropLast) : l ++ ['\n'] <:+: s := by
  induction hn : s.length using Nat.strongRecOn generalizing s with
  | ind n ih =>
      by_cases hnl : '\n' ∈ s
      · obtain ⟨a, b, rfl, ha⟩ := List.eq_append_cons_of_mem hnl
        rw [lines_append, lines_of_notMem ha, List.dropLast_append_of_ne_nil (lines_ne_nil b)] at h
        rcases List.mem_append.mp h with h | h
        · obtain rfl := List.mem_singleton.mp h
          exact ⟨[], b, by simp⟩
        · have hrest := ih b.length (by rw [← hn, List.length_append, List.length_cons]; omega) h rfl
          exact hrest.trans ⟨a ++ ['\n'], [], by simp⟩
      · rw [lines_of_notMem hnl] at h
        cases h

theorem lineAfter_isSome {l : Text} {ls : List Text} (h : l ∈ ls.dropLast) :
    (lineAfter l ls).isSome := by
  induction ls with
  | nil => cases h
  | cons l' ls ih =>
      cases ls with
      | nil => cases h
      | cons l'' ls =>
          rw [lineAfter]
          split
          · rfl
          · next hne =>
              rw [List.dropLast_cons_cons] at h
              exact ih ((List.mem_cons.mp h).resolve_left (Ne.symm hne))

theorem addOnce_isSome (mark text : Text) (h : after <:+: s) : ∃ t, addOnce after mark text s = some t :=
  ⟨_, if_pos h⟩

theorem addLink_isSome (h : HasAnchors s) : ∃ t, addLink s = some t := by
  obtain ⟨next, hnext⟩ := Option.isSome_iff_exists.mp (lineAfter_isSome h.cmd)
  have hcmd : cmd <:+: s := line_infix h.cmd
  unfold addLink
  rw [if_pos hcmd, hnext]
  exact ⟨_, rfl⟩

theorem addOnce_hasAnchors {a b mark : Text} (hs : HasAnchors s)
    (h : addOnce (a ++ ['\n']) mark (b ++ ['\n']) s = some t) : HasAnchors t := by
  rcases addOnce_cases (by simp) h with hins | rfl
  · exact hins.hasAnchors hs
  · exact hs

/-- On a text with the anchors the script runs to its end. -/
theorem patch_isSome (stubs : Text) (h : HasAnchors s) : ∃ t, patch stubs s = some t := by
  obtain ⟨s₁, h₁⟩ := addOnce_isSome ruleMark (rule stubs) h.anchor
  have hs₁ : HasAnchors s₁ := addOnce_hasAnchors h h₁
  obtain ⟨s₂, h₂⟩ := addOnce_isSome entry entry hs₁.dep
  have hs₂ : HasAnchors s₂ := addOnce_hasAnchors hs₁ h₂
  obtain ⟨t, ht⟩ := addLink_isSome hs₂
  refine ⟨t, ?_⟩
  show (addOnce anchor ruleMark (rule stubs) s).bind _ = some t
  rw [h₁]
  show (addOnce dep entry entry s₁).bind _ = some t
  rw [h₂]
  exact ht

/-! ## A run that adds the link entry -/

/-- What the last step inserts does not carry its mark, so the step is done again. -/
theorem addLink_again (hfirst : InsertedAfter cmd entry s t) {next : Text}
    (hnext : lineAfter cmdLine (lines s) = some next) (hmark : ¬ linkMark <:+: next) :
    addLink t ≠ some t := by
  have hentry : ¬ linkMark <:+: entryLine := by decide
  have hpos : 0 < entry.length := by decide
  intro hagain
  obtain ⟨next', hnext', ⟨-, hins⟩ | ⟨hmark', -⟩⟩ := addLink_cases hagain
  · have hlen := hins.length
    omega
  · rcases lineAfter_inserted hfirst hnext with heq | heq
    · exact hmark (Option.some.inj (heq.symm.trans hnext') ▸ hmark')
    · exact hentry (Option.some.inj (heq.symm.trans hnext') ▸ hmark')

theorem addOnce_length {mark : Text} (hne : after ≠ []) (h : addOnce after mark text s = some t) :
    t = s ∨ t.length = s.length + text.length := by
  rcases addOnce_cases hne h with hins | heq
  · exact .inr hins.length
  · exact .inl heq

/-- No step of a run takes anything away, so a run that changes nothing is one whose last step changes
nothing. -/
theorem addLink_of_patch_eq {stubs : Text} (h : patch stubs t = some t) : addLink t = some t := by
  obtain ⟨s₁, s₂, h₁, h₂, h₃⟩ := patch_some h
  have hpos : 0 < entry.length := by decide
  have hrule : 0 < (rule stubs).length :=
    List.length_pos_of_mem (List.mem_append_right _ (List.mem_singleton_self '\n'))
  have hlen₃ : s₂.length ≤ t.length := by
    obtain ⟨-, -, ⟨-, hins⟩ | ⟨-, rfl⟩⟩ := addLink_cases h₃
    · rw [hins.length]
      omega
    · exact Nat.le_refl _
  have hlen₂ := addOnce_length (by decide) h₂
  have hlen₁ := addOnce_length (by decide) h₁
  obtain rfl : s₁ = t := by
    rcases hlen₁ with heq | hlen₁
    · exact heq
    · rcases hlen₂ with rfl | hlen₂ <;> omega
  obtain rfl : s₂ = s₁ := by
    rcases hlen₂ with heq | hlen₂
    · exact heq
    · omega
  exact h₃

/-- A run that has added all three parts has added the last one. -/
theorem addLink_of_addsOnce {stubs : Text} (h : patch stubs s = some t) (hadds : AddsOnce stubs s t) :
    ∃ s₂ next, InsertedAfter cmd entry s₂ t ∧ lineAfter cmdLine (lines s₂) = some next ∧
      ¬ linkMark <:+: next := by
  obtain ⟨s₁, s₂, h₁, h₂, h₃⟩ := patch_some h
  obtain ⟨u₁, u₂, hu₁, hu₂, hu₃⟩ := hadds
  have hlen := hu₁.length
  have hlen' := hu₂.length
  have hlen'' := hu₃.length
  have hpos : 0 < entry.length := by decide
  obtain ⟨next, hnext, ⟨hmark, hins⟩ | ⟨-, rfl⟩⟩ := addLink_cases h₃
  · exact ⟨s₂, next, hins, hnext, hmark⟩
  · -- two steps are too short
    exfalso
    have hlen₁ : s₁.length ≤ s.length + (rule stubs).length := by
      rcases addOnce_length (by decide) h₁ with rfl | hlen₁ <;> omega
    have hlen₂ : t.length ≤ s₁.length + entry.length := by
      rcases addOnce_length (by decide) h₂ with rfl | hlen₂ <;> omega
    omega

/-- **The script does not settle.** On a text with the anchors it runs to its end, but never so that
it adds the three parts and that running it again changes nothing. -/
theorem patch_never_settles (stubs s : Text) (h : HasAnchors s) :
    ∃ t, patch stubs s = some t ∧
      ¬ (AddsOnce stubs s t ∧ ∀ k, patches stubs k t = some t) := by
  obtain ⟨t, ht⟩ := patch_isSome stubs h
  refine ⟨t, ht, ?_⟩
  rintro ⟨hadds, hsettled⟩
  obtain ⟨s₂, next, hins, hnext, hmark⟩ := addLink_of_addsOnce ht hadds
  have hagain : patch stubs t = some t := by
    have hone := hsettled 1
    obtain ⟨t', ht', hsome⟩ := Option.bind_eq_some_iff.mp hone
    cases hsome
    exact ht'
  exact addLink_again hins hnext hmark (addLink_of_patch_eq hagain)

/-- A Makefile with `rules` after the `LINK` line, `deps` in the dependencies and `objs` in the link
command. -/
def makefileWith (rules deps objs : Text) : Text :=
  anchor ++ rules ++ dep ++ deps ++ "\tobjs/ngx_modules.o\n".toList ++ cmd ++ objs ++
    "\tobjs/ngx_modules.o\n".toList

def sampleStubs : Text := "/w/nginx_stubs.c".toList

theorem sampleMakefile_hasAnchors : HasAnchors (makefileWith [] [] []) :=
  ⟨by decide +kernel, by decide +kernel, by decide +kernel⟩

theorem sample_never_settles :
    HasAnchors (makefileWith [] [] []) ∧ ∃ t, patch sampleStubs (makefileWith [] [] []) = some t ∧
      ¬ (AddsOnce sampleStubs (makefileWith [] [] []) t ∧ ∀ k, patches sampleStubs k t = some t) :=
  ⟨sampleMakefile_hasAnchors, patch_never_settles sampleStubs _ sampleMakefile_hasAnchors⟩

/-- The first run adds each part once, the second run adds the link entry again. -/
theorem second_run_adds_again :
    HasAnchors (makefileWith [] [] []) ∧
      patch sampleStubs (makefileWith [] [] []) =
        some (makefileWith (rule sampleStubs) entry entry) ∧
      AddsOnce sampleStubs (makefileWith [] [] []) (makefileWith (rule sampleStubs) entry entry) ∧
      patch sampleStubs (makefileWith (rule sampleStubs) entry entry) =
        some (makefileWith (rule sampleStubs) entry (entry ++ entry)) ∧
      makefileWith (rule sampleStubs) entry (entry ++ entry) ≠
        makefileWith (rule sampleStubs) entry entry := by
  refine ⟨sampleMakefile_hasAnchors, by decide +kernel, ?_, by decide +kernel, by decide +kernel⟩
  refine ⟨makefileWith (rule sampleStubs) [] [], makefileWith (rule sampleStubs) entry [], ?_, ?_, ?_⟩
  · exact ⟨[], dep ++ "\tobjs/ngx_modules.o\n".toList ++ cmd ++ "\tobjs/ngx_modules.o\n".toList,
      by decide +kernel, by decide +kernel⟩
  · exact ⟨anchor ++ rule sampleStubs,
      "\tobjs/ngx_modules.o\n".toList ++ cmd ++ "\tobjs/ngx_modules.o\n".toList,
      by decide +kernel, by decide +kernel⟩
  · exact ⟨anchor ++ rule sampleStubs ++ dep ++ entry ++ "\tobjs/ngx_modules.o\n".toList,
      "\tobjs/ngx_modules.o\n".toList, by decide +kernel, by decide +kernel⟩

end WasiPorts.Nginx.PatchObjs
