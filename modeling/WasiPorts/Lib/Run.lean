import Mathlib.Data.List.Basic

/-!
# Runs of a deterministic state machine

A machine is a step function `step : σ → ι → σ`; its inputs carry everything the environment
decides (requests, clock readings, results of system calls). A run is a list of inputs.

* `run` — the state a run ends in.
* `Meets ok` — every step of the run satisfies `ok` in the state it is taken from.
* `Always P` — `P` holds in every state of the run, the first one included.

Two rules turn a fact about one step into a fact about runs: `Always.of_inductive` (an inductive
invariant, relative to a condition on the steps) and `always_iff_meets` (the condition is also
necessary, when breaking it at one step breaks the property right after that step).
-/

namespace WasiPorts.Run

variable {σ ι : Type*}

/-- The state reached from `s` by the inputs `is`. -/
def run (step : σ → ι → σ) (s : σ) (is : List ι) : σ := is.foldl step s

/-- Every step of the run meets `ok` in the state in which it is taken. -/
def Meets (step : σ → ι → σ) (ok : σ → ι → Prop) : σ → List ι → Prop
  | _, [] => True
  | s, i :: is => ok s i ∧ Meets step ok (step s i) is

/-- `P` holds in every state of the run. -/
def Always (step : σ → ι → σ) (P : σ → Prop) : σ → List ι → Prop
  | s, [] => P s
  | s, i :: is => P s ∧ Always step P (step s i) is

variable {step : σ → ι → σ} {ok : σ → ι → Prop} {P Inv : σ → Prop}

instance Meets.decidable [∀ s i, Decidable (ok s i)] :
    ∀ s is, Decidable (Meets step ok s is)
  | _, [] => inferInstanceAs (Decidable True)
  | s, i :: is =>
    have := Meets.decidable (step s i) is
    inferInstanceAs (Decidable (ok s i ∧ Meets step ok (step s i) is))

instance Always.decidable [DecidablePred P] : ∀ s is, Decidable (Always step P s is)
  | s, [] => inferInstanceAs (Decidable (P s))
  | s, i :: is =>
    have := Always.decidable (step s i) is
    inferInstanceAs (Decidable (P s ∧ Always step P (step s i) is))

@[simp] theorem run_nil (s : σ) : run step s [] = s := rfl

@[simp] theorem run_cons (s : σ) (i : ι) (is : List ι) :
    run step s (i :: is) = run step (step s i) is := rfl

theorem run_append (s : σ) (is js : List ι) :
    run step s (is ++ js) = run step (run step s is) js :=
  List.foldl_append

/-- Two machines side by side on the same inputs. -/
def both {τ : Type*} (f : σ → ι → σ) (g : τ → ι → τ) (st : σ × τ) (i : ι) : σ × τ :=
  (f st.1 i, g st.2 i)

theorem run_both {τ : Type*} (f : σ → ι → σ) (g : τ → ι → τ) (st : σ × τ) (is : List ι) :
    run (both f g) st is = (run f st.1 is, run g st.2 is) := by
  induction is generalizing st with
  | nil => rfl
  | cons i is ih => exact ih (both f g st i)

theorem Always.head {s : σ} {is : List ι} (h : Always step P s is) : P s := by
  cases is with
  | nil => exact h
  | cons i is => exact h.1

theorem Always.last {s : σ} {is : List ι} (h : Always step P s is) : P (run step s is) := by
  induction is generalizing s with
  | nil => exact h
  | cons i is ih => exact ih h.2

theorem Always.mono {Q : σ → Prop} (hPQ : ∀ s, P s → Q s) {s : σ} {is : List ι}
    (h : Always step P s is) : Always step Q s is := by
  induction is generalizing s with
  | nil => exact hPQ s h
  | cons i is ih => exact ⟨hPQ s h.1, ih h.2⟩

/-- **Invariant rule.** What holds at the start and is kept by every step that meets `ok` holds
throughout every run whose steps meet `ok`. -/
theorem Always.of_inductive (hstep : ∀ s i, Inv s → ok s i → Inv (step s i)) {s : σ}
    {is : List ι} (hs : Inv s) (hok : Meets step ok s is) : Always step Inv s is := by
  induction is generalizing s with
  | nil => exact hs
  | cons i is ih => exact ⟨hs, ih (hstep s i hs hok.1) hok.2⟩

/-- The invariant rule without a condition on the steps. -/
theorem Always.of_step (hstep : ∀ s i, Inv s → Inv (step s i)) {s : σ} (hs : Inv s)
    (is : List ι) : Always step Inv s is := by
  induction is generalizing s with
  | nil => exact hs
  | cons i is ih => exact ⟨hs, ih (hstep s i hs)⟩

/-- **Exactness rule**, for runs whose steps meet `asm`. Let `Inv` be kept by the steps that meet
`ok` and imply `P`. If a step that does not meet `ok` leaves `P` broken, then `P` holds throughout a
run exactly when all steps of the run meet `ok`. -/
theorem always_iff_meets_of {asm : σ → ι → Prop} (hP : ∀ s, Inv s → P s)
    (hstep : ∀ s i, Inv s → asm s i → ok s i → Inv (step s i))
    (hbreak : ∀ s i, Inv s → asm s i → ¬ ok s i → ¬ P (step s i)) {s : σ} {is : List ι}
    (hs : Inv s) (hasm : Meets step asm s is) : Always step P s is ↔ Meets step ok s is := by
  induction is generalizing s with
  | nil => exact ⟨fun _ => trivial, fun _ => hP s hs⟩
  | cons i is ih =>
      constructor
      · intro h
        have hok : ok s i := by
          by_contra hn
          exact hbreak s i hs hasm.1 hn h.2.head
        exact ⟨hok, (ih (hstep s i hs hasm.1 hok) hasm.2).mp h.2⟩
      · intro h
        exact ⟨hP s hs, (ih (hstep s i hs hasm.1 h.1) hasm.2).mpr h.2⟩

theorem Meets.trivial (s : σ) (is : List ι) : Meets step (fun _ _ => True) s is := by
  induction is generalizing s with
  | nil => exact True.intro
  | cons i is ih => exact ⟨True.intro, ih (step s i)⟩

theorem Meets.of_forall {s : σ} {is : List ι} (h : ∀ s, ∀ i ∈ is, ok s i) : Meets step ok s is := by
  induction is generalizing s with
  | nil => exact True.intro
  | cons i is ih => exact ⟨h s i List.mem_cons_self, ih fun s j hj => h s j (List.mem_cons_of_mem i hj)⟩

/-- The exactness rule without an assumption on the steps. -/
theorem always_iff_meets (hP : ∀ s, Inv s → P s)
    (hstep : ∀ s i, Inv s → ok s i → Inv (step s i))
    (hbreak : ∀ s i, Inv s → ¬ ok s i → ¬ P (step s i)) {s : σ} {is : List ι} (hs : Inv s) :
    Always step P s is ↔ Meets step ok s is :=
  always_iff_meets_of hP (fun s i h _ => hstep s i h) (fun s i h _ => hbreak s i h) hs
    (.trivial s is)

end WasiPorts.Run
