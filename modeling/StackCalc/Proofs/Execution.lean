import StackCalc.Session

/-! # Running steps

`Calc.exec` runs a step in a state. The lemmas here run the pieces that steps are made of, so that
later proofs compute with states and never open the monad. -/

namespace StackCalc

@[simp]
theorem ok_bind {ε α β : Type} {a : α} {f : α → Except ε β} : Except.ok a >>= f = f a := rfl

theorem bind_eq_ok {ε α β : Type} {x : Except ε α} {f : α → Except ε β} {b : β} :
    x >>= f = .ok b ↔ ∃ a, x = .ok a ∧ f a = .ok b := by
  cases x with
  | error e => simp [bind, Except.bind]
  | ok a => simp [bind, Except.bind]

theorem map_eq_ok {ε α β : Type} {x : Except ε α} {f : α → β} {b : β} :
    x.map f = .ok b ↔ ∃ a, x = .ok a ∧ f a = b := by
  cases x with
  | error e => simp [Except.map]
  | ok a => simp [Except.map]

@[simp] theorem mapError_ok {ε ε' α : Type} (f : ε → ε') (a : α) :
    (Except.ok a : Except ε α).mapError f = .ok a := rfl

@[simp] theorem mapError_error {ε ε' α : Type} (f : ε → ε') (e : ε) :
    (Except.error e : Except ε α).mapError f = .error (f e) := rfl

theorem mapError_eq_ok {ε ε' α : Type} {x : Except ε α} {f : ε → ε'} {a : α} :
    x.mapError f = .ok a ↔ x = .ok a := by
  cases x with
  | error e => simp
  | ok a => simp

/-- A computation whose result, if it has one, satisfies `Q`. -/
def Yields {α : Type} (Q : α → Prop) (x : Except Error α) : Prop := ∀ a, x = .ok a → Q a

section
variable {α β : Type} {Q : α → Prop} {R : β → Prop}

@[simp]
theorem yields_ok {a : α} : Yields Q (.ok a) ↔ Q a := by simp [Yields]

@[simp]
theorem yields_pure {a : α} : Yields Q (pure a) ↔ Q a := yields_ok

@[simp]
theorem yields_error {e : Error} : Yields Q (.error e) := by simp [Yields]

@[simp]
theorem yields_throw {e : Error} : Yields Q (throw e) := yields_error

@[simp]
theorem yields_bind {x : Except Error α} {f : α → Except Error β} :
    Yields R (x >>= f) ↔ Yields (fun a => Yields R (f a)) x := by
  cases x with
  | error e => simp [bind, Except.bind]
  | ok a => simp [bind, Except.bind]

@[simp]
theorem yields_map {x : Except Error α} {f : α → β} :
    Yields R (x.map f) ↔ Yields (fun a => R (f a)) x := by
  cases x with
  | error e => simp [Except.map]
  | ok a => simp [Except.map]

@[simp]
theorem yields_fmap {x : Except Error α} {f : α → β} :
    Yields R (f <$> x) ↔ Yields (fun a => R (f a)) x := yields_map

@[simp]
theorem yields_true {x : Except Error α} : Yields (fun _ => True) x := fun _ _ => trivial

theorem Yields.mono {x : Except Error α} {Q' : α → Prop} (h : Yields Q x) (hq : ∀ a, Q a → Q' a) :
    Yields Q' x := fun a ha => hq a (h a ha)

/-- A fold whose steps keep a property. -/
theorem yields_foldlM {step : α → α → Except Error α}
    (hs : ∀ a b, Q a → Q b → Yields Q (step a b)) :
    ∀ (as : List α) (a : α), Q a → (∀ b ∈ as, Q b) → Yields Q (as.foldlM step a)
  | [], a, ha, _ => by simpa using ha
  | b :: as, a, ha, h => by
    rw [List.foldlM_cons, yields_bind]
    refine (hs a b ha (h b (by simp))).mono fun c hc => ?_
    exact yields_foldlM hs as c hc fun d hd => h d (List.mem_cons_of_mem _ hd)

end

/-- A loop without a result of its own is a sequence of steps. -/
theorem forIn_eq_forM {M : Type → Type} [Monad M] [LawfulMonad M] {α : Type} (as : List α)
    (f : α → M PUnit) :
    (forIn as PUnit.unit fun a _ => do f a; pure (ForInStep.yield PUnit.unit)) = forM as f := by
  induction as with
  | nil => rfl
  | cons a as ih => simp only [List.forIn_cons, bind_assoc, pure_bind, ih, List.forM_cons]

namespace Calc

/-- The outcome of a step in a state, and the state that it leaves. -/
def exec {α : Type} (x : Calc α) (m : Machine) : Except Error α × Machine := x.run.run m

variable {α β : Type} (m : Machine)

@[simp]
theorem exec_get : exec get m = (.ok m, m) := rfl

@[simp]
theorem exec_modify (f : Machine → Machine) : exec (modify f) m = (.ok ⟨⟩, f m) := rfl

theorem exec_bind (x : Calc α) (f : α → Calc β) :
    exec (x >>= f) m = match exec x m with
      | (.ok a, n) => exec (f a) n
      | (.error e, n) => (.error e, n) := by
  show (ExceptT.bind x f).run.run m = _
  simp only [ExceptT.bind, ExceptT.bindCont, exec, ExceptT.run, ExceptT.mk, StateT.run, bind,
    StateT.bind]
  cases h : x m with
  | mk r n => cases r <;> rfl

@[simp]
theorem exec_lift (r : Except Error α) : exec (lift r) m = (r, m) := by
  cases r <;> rfl

@[simp]
theorem exec_liftStack (r : Except StackFault α) : exec (liftStack r) m = (r.mapError .stack, m) :=
  exec_lift m _

theorem exec_get_bind (f : Machine → Calc β) : exec (get >>= f) m = exec (f m) m := by
  simp only [exec_bind, exec_get]

/-- A rearrangement of the stack happens if it has a result. -/
theorem exec_rearrange (f : Stack → Except StackFault Stack) :
    exec (rearrange f) m = match f m.stack with
      | .ok stack => (.ok (), m.withStack stack)
      | .error fault => (.error (.stack fault), m) := by
  rw [rearrange, exec_get_bind, exec_bind, exec_liftStack]
  cases f m.stack <;> rfl

theorem exec_modify_bind (g : Machine → Machine) (f : PUnit → Calc β) :
    exec (modify g >>= f) m = exec (f ⟨⟩) (g m) := by
  simp only [exec_bind, exec_modify]

variable {m}

/-- A step that succeeds does so in each of its parts. -/
theorem exec_bind_eq_ok {x : Calc α} {f : α → Calc β} {b : β} {n : Machine}
    (h : exec (x >>= f) m = (.ok b, n)) :
    ∃ a k, exec x m = (.ok a, k) ∧ exec (f a) k = (.ok b, n) := by
  rw [exec_bind] at h
  cases hx : exec x m with
  | mk r k =>
    rw [hx] at h
    cases r with
    | error e => cases h
    | ok a => exact ⟨a, k, rfl, h⟩

/-- A step that succeeds after it has read the state. -/
theorem exec_read_eq_ok {x : Calc α} {r : Except Error α} {f : α → Calc β} {b : β} {n : Machine}
    (hx : exec x m = (r, m)) (h : exec (x >>= f) m = (.ok b, n)) :
    ∃ a, r = .ok a ∧ exec (f a) m = (.ok b, n) := by
  obtain ⟨a, k, ha, hf⟩ := exec_bind_eq_ok h
  cases hx.symm.trans ha
  exact ⟨a, rfl, hf⟩

/-- Steps that only read the state compose like their outcomes. -/
theorem exec_bind_read {x : Calc α} {r : Except Error α} {f : α → Calc β} {g : α → Except Error β}
    (hx : exec x m = (r, m)) (hf : ∀ a, exec (f a) m = (g a, m)) :
    exec (x >>= f) m = (r >>= g, m) := by
  rw [exec_bind, hx]
  cases r with
  | error e => rfl
  | ok a => exact hf a

/-- A loop of steps that only read the state reads the state and no more. -/
theorem exec_forIn_read {x : α → Calc β} (h : ∀ a, ∃ r, exec (x a) m = (r, m)) (as : List α) :
    ∃ r, exec (forIn as PUnit.unit fun a _ => do
      let _ ← x a
      pure (ForInStep.yield PUnit.unit)) m = (r, m) := by
  induction as with
  | nil => exact ⟨.ok ⟨⟩, rfl⟩
  | cons a as ih =>
    obtain ⟨r, hr⟩ := h a
    obtain ⟨rest, hrest⟩ := ih
    rw [List.forIn_cons, bind_assoc]
    simp only [pure_bind]
    exact ⟨_, exec_bind_read hr fun _ => hrest⟩

variable (m)

/-- A step whose failure is caught has no failure of its own. -/
theorem exec_caught (x : Calc α) :
    exec (tryCatch (ExceptT.map Except.ok x) fun e => pure (.error e) : Calc (Except Error α)) m =
      (.ok (exec x m).1, (exec x m).2) := by
  simp only [tryCatch, tryCatchThe, MonadExceptOf.tryCatch, ExceptT.tryCatch, ExceptT.map, exec,
    ExceptT.run, ExceptT.mk, StateT.run, bind, StateT.bind]
  cases h : x m with
  | mk r n => cases r <;> rfl

end Calc

namespace Session

theorem run_cons_snd (i : Instruction) (is : List Instruction) (m : Session) :
    (run (i :: is) m).2 = (run is (runOne i m).2).2 := by
  rw [run]
  cases h : runOne i m with
  | mk r n => cases r <;> rfl

/-- An instruction that fails where it started leaves nothing behind. -/
theorem runOne_refused {i : Instruction} {e : Error} {m : Session}
    (h : Calc.exec (Evaluator.runInstruction (Evaluator.levelsLeft m) i) m = (.error e, m)) :
    runOne i m = (.error e, m) := by
  have h : (Evaluator.runInstruction (Evaluator.levelsLeft m) i).run.run m = (.error e, m) := h
  rw [runOne, h]
  rfl

end Session
end StackCalc
