import Mathlib.Data.List.Basic

/-! Runs of a partial step function. A refused step ends the run, so a statement
about a run speaks only of the steps really taken. Nothing here knows a program:
a model supplies the step, a condition on its steps and an invariant. -/
namespace KernelLabs.Runs

variable {σ ι : Type} (step : σ → ι → Option σ)

def exec : σ → List ι → Option σ
  | s, [] => some s
  | s, op :: ops => (step s op).bind (fun t => exec t ops)

/- `p before op after` holds of every step taken. -/
def EachStep (p : σ → ι → σ → Prop) : σ → List ι → Prop
  | _, [] => True
  | s, op :: ops => ∀ t, step s op = some t → p s op t ∧ EachStep p t ops

def EachState (p : σ → Prop) : σ → List ι → Prop
  | s, [] => p s
  | s, op :: ops => p s ∧ ∀ t, step s op = some t → EachState p t ops

variable {step}

/- What can be decided of one step can be decided of a run. -/
instance eachStepDecidable {p : σ → ι → σ → Prop} [∀ s op t, Decidable (p s op t)] :
    (s : σ) → (ops : List ι) → Decidable (EachStep step p s ops)
  | _, [] => isTrue trivial
  | s, op :: ops =>
    match taken : step s op with
    | none => isTrue (fun t some => absurd (taken.symm.trans some) (Option.some_ne_none t).symm)
    | some t =>
      have _ : Decidable (EachStep step p t ops) := eachStepDecidable t ops
      decidable_of_iff (p s op t ∧ EachStep step p t ops)
        ⟨fun here _ some => Option.some.inj (taken.symm.trans some) ▸ here, fun each => each t taken⟩

instance eachStateDecidable {p : σ → Prop} [∀ s, Decidable (p s)] :
    (s : σ) → (ops : List ι) → Decidable (EachState step p s ops)
  | s, [] => inferInstanceAs (Decidable (p s))
  | s, op :: ops =>
    match taken : step s op with
    | none =>
      decidable_of_iff (p s)
        ⟨fun here => ⟨here, fun t some => absurd (taken.symm.trans some) (Option.some_ne_none t).symm⟩, And.left⟩
    | some t =>
      have _ : Decidable (EachState step p t ops) := eachStateDecidable t ops
      decidable_of_iff (p s ∧ EachState step p t ops)
        ⟨fun both => ⟨both.1, fun _ some => Option.some.inj (taken.symm.trans some) ▸ both.2⟩,
          fun each => ⟨each.1, each.2 t taken⟩⟩

theorem execCons {s t : σ} {op : ι} (taken : step s op = some t) (ops : List ι) :
    exec step s (op :: ops) = exec step t ops := by
  simp only [exec, taken, Option.bind_some]

theorem execConsSome {s u : σ} {op : ι} {ops : List ι} (ran : exec step s (op :: ops) = some u) :
    ∃ t, step s op = some t ∧ exec step t ops = some u :=
  Option.bind_eq_some_iff.mp ran

theorem execAppend (s : σ) (ops more : List ι) :
    exec step s (ops ++ more) = (exec step s ops).bind (fun t => exec step t more) := by
  induction ops generalizing s with
  | nil => rfl
  | cons op ops ih =>
    simp only [List.cons_append, exec]
    cases step s op with
    | none => rfl
    | some t => simp only [Option.bind_some, ih]

/- What one step preserves, a whole run preserves. -/
theorem execInvariant {inv : σ → Prop}
    (keep : ∀ s op t, inv s → step s op = some t → inv t)
    {s u : σ} {ops : List ι} (start : inv s) (ran : exec step s ops = some u) : inv u := by
  induction ops generalizing s with
  | nil => cases Option.some.inj ran; exact start
  | cons op ops ih =>
    obtain ⟨t, taken, rest⟩ := execConsSome ran
    exact ih (keep s op t start taken) rest

/- Steps that are never refused under an invariant that they keep: every run of them goes through. -/
theorem execTotalOf {inv : σ → Prop} {good : ι → Prop}
    (goes : ∀ s op, good op → inv s → ∃ t, step s op = some t ∧ inv t) {s : σ} (start : inv s) {ops : List ι}
    (all : ∀ op ∈ ops, good op) : ∃ t, exec step s ops = some t ∧ inv t := by
  induction ops generalizing s with
  | nil => exact ⟨s, rfl, start⟩
  | cons op ops ih =>
    obtain ⟨t, taken, kept⟩ := goes s op (all op List.mem_cons_self) start
    obtain ⟨u, ran, last⟩ := ih kept (fun later mem => all later (List.mem_cons_of_mem op mem))
    exact ⟨u, (execCons taken ops).trans ran, last⟩

theorem execTotal {inv : σ → Prop} (goes : ∀ s op, inv s → ∃ t, step s op = some t ∧ inv t)
    {s : σ} (start : inv s) (ops : List ι) : ∃ t, exec step s ops = some t ∧ inv t :=
  execTotalOf (fun s op (_ : True) => goes s op) start (fun _ _ => trivial)

theorem eachStepAt {p : σ → ι → σ → Prop} {s t u : σ} {op : ι} {pre post : List ι}
    (each : EachStep step p s (pre ++ op :: post)) (reached : exec step s pre = some t)
    (taken : step t op = some u) : p t op u := by
  induction pre generalizing s with
  | nil =>
    cases Option.some.inj reached
    exact (each u taken).1
  | cons first pre ih =>
    obtain ⟨v, here, rest⟩ := execConsSome reached
    exact ih (each v here).2 rest

theorem eachStepLast {p : σ → ι → σ → Prop} {s t u : σ} {op : ι} {ops : List ι}
    (each : EachStep step p s (ops ++ [op])) (reached : exec step s ops = some t)
    (taken : step t op = some u) : p t op u := eachStepAt each reached taken

theorem eachStateAt {p : σ → Prop} {s t : σ} {pre post : List ι}
    (each : EachState step p s (pre ++ post)) (reached : exec step s pre = some t) : p t := by
  induction pre generalizing s with
  | nil =>
    cases Option.some.inj reached
    cases post with
    | nil => exact each
    | cons op post => exact each.1
  | cons first pre ih =>
    obtain ⟨v, here, rest⟩ := execConsSome reached
    exact ih (each.2 v here) rest

theorem eachStateAppend {p : σ → Prop} {s : σ} {ops more : List ι} (first : EachState step p s ops)
    (rest : ∀ t, exec step s ops = some t → EachState step p t more) :
    EachState step p s (ops ++ more) := by
  induction ops generalizing s with
  | nil => exact rest s rfl
  | cons op ops ih =>
    refine ⟨first.1, ?_⟩
    intro t taken
    exact ih (first.2 t taken) fun u ran => rest u ((execCons taken ops).trans ran)

theorem eachStateLast {p : σ → Prop} {s t : σ} {ops : List ι} (each : EachState step p s ops)
    (reached : exec step s ops = some t) : p t :=
  eachStateAt (by rw [List.append_nil]; exact each) reached

/- The invariant rule for runs whose steps all meet a condition `c`. -/
theorem eachStepOfInvariant {inv : σ → Prop} {c p : σ → ι → σ → Prop}
    (keep : ∀ s op t, inv s → step s op = some t → c s op t → inv t)
    (goal : ∀ s op t, inv s → step s op = some t → c s op t → p s op t)
    {s : σ} {ops : List ι} (start : inv s) (meets : EachStep step c s ops) :
    EachStep step p s ops := by
  induction ops generalizing s with
  | nil => trivial
  | cons op ops ih =>
    intro t taken
    obtain ⟨here, rest⟩ := meets t taken
    exact ⟨goal s op t start taken here, ih (keep s op t start taken here) rest⟩

theorem eachStateOfInvariant {inv p : σ → Prop} {c : σ → ι → σ → Prop}
    (keep : ∀ s op t, inv s → step s op = some t → c s op t → inv t)
    (goal : ∀ s, inv s → p s)
    {s : σ} {ops : List ι} (start : inv s) (meets : EachStep step c s ops) :
    EachState step p s ops := by
  induction ops generalizing s with
  | nil => exact goal s start
  | cons op ops ih =>
    refine ⟨goal s start, ?_⟩
    intro t taken
    obtain ⟨here, rest⟩ := meets t taken
    exact ih (keep s op t start taken here) rest

/- Unconditional runs are those whose steps meet nothing in particular. -/
theorem eachStepTrue (s : σ) (ops : List ι) : EachStep step (fun _ _ _ => True) s ops := by
  induction ops generalizing s with
  | nil => trivial
  | cons op ops ih => exact fun t _ => ⟨trivial, ih t⟩

theorem eachStateInvariant {inv p : σ → Prop}
    (keep : ∀ s op t, inv s → step s op = some t → inv t) (goal : ∀ s, inv s → p s)
    {s : σ} (start : inv s) (ops : List ι) : EachState step p s ops :=
  eachStateOfInvariant (fun s op t h taken _ => keep s op t h taken) goal start (eachStepTrue s ops)

theorem eachStepInvariant {inv : σ → Prop} {p : σ → ι → σ → Prop}
    (keep : ∀ s op t, inv s → step s op = some t → inv t)
    (goal : ∀ s op t, inv s → step s op = some t → p s op t)
    {s : σ} (start : inv s) (ops : List ι) : EachStep step p s ops :=
  eachStepOfInvariant (fun s op t h taken _ => keep s op t h taken)
    (fun s op t h taken _ => goal s op t h taken) start (eachStepTrue s ops)

/- Two step properties that agree under an invariant, which either of them is
enough to keep, agree on whole runs. -/
theorem eachStepIff {inv : σ → Prop} {p q : σ → ι → σ → Prop}
    (agree : ∀ s op t, inv s → step s op = some t → (p s op t ↔ q s op t))
    (keep : ∀ s op t, inv s → step s op = some t → p s op t → inv t)
    {s : σ} {ops : List ι} (start : inv s) :
    EachStep step p s ops ↔ EachStep step q s ops := by
  induction ops generalizing s with
  | nil => exact Iff.rfl
  | cons op ops ih =>
    constructor
    · intro each t taken
      obtain ⟨here, rest⟩ := each t taken
      exact ⟨(agree s op t start taken).mp here,
        (ih (keep s op t start taken here)).mp rest⟩
    · intro each t taken
      obtain ⟨here, rest⟩ := each t taken
      have good := (agree s op t start taken).mpr here
      exact ⟨good, (ih (keep s op t start taken good)).mpr rest⟩

end KernelLabs.Runs
