import Mathlib.Tactic

/-!
# Computations that perform operations

A computation over a state may stop, and the state it has reached then is kept.
A script is a list of operations that are executed one after the other.  A
computation whose branches depend on nothing but its arguments performs a script,
and what holds at every point of the computation can be read off the script.
-/

namespace ClOs

def Stopping (State Stop Value : Type) := State → Except Stop Value × State

namespace Stopping

variable {State Stop Value Result Operation : Type}

instance : Monad (Stopping State Stop) where
  pure value := fun s => (.ok value, s)
  bind first rest := fun s =>
    match first s with
    | (.ok value, s) => rest value s
    | (.error stop, s) => (.error stop, s)

def stop (reason : Stop) : Stopping State Stop Value :=
  fun s => (.error reason, s)

def change (f : State → State) : Stopping State Stop Unit :=
  fun s => (.ok (), f s)

def read (f : State → Value) : Stopping State Stop Value :=
  fun s => (.ok (f s), s)

theorem bind_ok
    {first : Stopping State Stop Value}
    {rest : Value → Stopping State Stop Result} {s mid : State} {value : Value}
    (h : first s = (.ok value, mid)) : (first >>= rest) s = rest value mid := by
  simp only [Bind.bind, h]

theorem bind_error
    {first : Stopping State Stop Value}
    {rest : Value → Stopping State Stop Result} {s mid : State} {reason : Stop}
    (h : first s = (.error reason, mid)) :
    (first >>= rest) s = (.error reason, mid) := by
  simp only [Bind.bind, h]

theorem bind_change
    (f : State → State) (rest : Unit → Stopping State Stop Result) (s : State) :
    (change f >>= rest) s = rest () (f s) := rfl

theorem bind_read
    (f : State → Value) (rest : Value → Stopping State Stop Result)
    (s : State) : (read f >>= rest) s = rest (f s) s := rfl

/-! ## Scripts -/

variable (execute : Operation → Stopping State Stop Unit)

def runAll : List Operation → Stopping State Stop Unit
  | [] => pure ()
  | operation :: script => do
      execute operation
      runAll script

def Performs (computation : Stopping State Stop Value) (script : List Operation)
    (value : Value) : Prop :=
  ∀ s, computation s = (runAll execute script >>= fun _ => pure value) s

variable {execute}

theorem runAll_append
    (first second : List Operation) (s : State) :
    runAll execute (first ++ second) s =
      (runAll execute first >>= fun _ => runAll execute second) s := by
  induction first generalizing s with
  | nil => rfl
  | cons operation first ih =>
      rw [List.cons_append, runAll, runAll]
      cases hop : execute operation s with
      | mk outcome mid =>
          cases outcome with
          | error reason => simp only [Bind.bind, hop]
          | ok value =>
              rw [bind_ok hop, ih]
              simp only [Bind.bind, hop]

theorem runAll_singleton
    (operation : Operation) (s : State) :
    runAll execute [operation] s = execute operation s := by
  rw [runAll]
  cases hop : execute operation s with
  | mk outcome mid =>
      cases outcome with
      | error reason => rw [bind_error hop]
      | ok value =>
          rw [bind_ok hop]
          rfl

theorem Performs.pure
    (value : Value) :
    Performs execute (pure value : Stopping State Stop Value) [] value :=
  fun _ => rfl

theorem Performs.operation
    (operation : Operation) :
    Performs execute (execute operation) [operation] () := by
  intro s
  have hsingle : runAll execute [operation] s = execute operation s :=
    runAll_singleton operation s
  cases hop : execute operation s with
  | mk outcome mid =>
      rw [hop] at hsingle
      cases outcome with
      | error reason => rw [bind_error hsingle]
      | ok value =>
          rw [bind_ok hsingle]
          rfl

theorem Performs.bind
    {first : Stopping State Stop Value}
    {rest : Value → Stopping State Stop Result}
    {script next : List Operation} {value : Value} {result : Result}
    (hfirst : Performs execute first script value)
    (hrest : Performs execute (rest value) next result) :
    Performs execute (first >>= rest) (script ++ next) result := by
  intro s
  have happend : runAll execute (script ++ next) s =
      (runAll execute script >>= fun _ => runAll execute next) s :=
    runAll_append script next s
  cases hrun : runAll execute script s with
  | mk outcome mid =>
      have hvalue := hfirst s
      cases outcome with
      | error reason =>
          rw [bind_error hrun] at hvalue happend
          rw [bind_error hvalue, bind_error happend]
      | ok ended =>
          rw [bind_ok hrun] at hvalue happend
          rw [bind_ok hvalue, hrest mid]
          simp only [Bind.bind, happend]

theorem runAll_error
    {script : List Operation} {s next : State} {reason : Stop}
    (h : runAll execute script s = (.error reason, next)) :
    ∃ performed operation rest mid, script = performed ++ operation :: rest ∧
      runAll execute performed s = (.ok (), mid) ∧
      execute operation mid = (.error reason, next) := by
  induction script generalizing s with
  | nil => cases h
  | cons operation script ih =>
      rw [runAll] at h
      cases hop : execute operation s with
      | mk outcome mid =>
          cases outcome with
          | error other =>
              rw [bind_error hop] at h
              cases h
              exact ⟨[], operation, script, s, rfl, rfl, hop⟩
          | ok value =>
              rw [bind_ok hop] at h
              obtain ⟨performed, stopped, rest, last, rfl, hrun, hstop⟩ := ih h
              refine ⟨operation :: performed, stopped, rest, last, rfl, ?_, hstop⟩
              rw [runAll, bind_ok hop, hrun]

/-- What every operation keeps where the script comes to it holds when the script
has ended or has stopped. -/
theorem runAll_keeps
    (keeps : State → Prop) {script : List Operation} {s : State}
    (hstep : ∀ performed operation rest mid,
      script = performed ++ operation :: rest →
      runAll execute performed s = (.ok (), mid) → keeps mid →
        keeps (execute operation mid).2)
    (hs : keeps s) : keeps (runAll execute script s).2 := by
  induction script generalizing s with
  | nil => exact hs
  | cons operation script ih =>
      have hmid := hstep [] operation script s rfl rfl hs
      rw [runAll]
      cases hop : execute operation s with
      | mk outcome mid =>
          rw [hop] at hmid
          cases outcome with
          | error reason =>
              rw [bind_error hop]
              exact hmid
          | ok value =>
              rw [bind_ok hop]
              refine ih (fun performed next rest last hsplit hrun hlast => ?_) hmid
              refine hstep (operation :: performed) next rest last ?_ ?_ hlast
              · rw [hsplit, List.cons_append]
              · rw [runAll, bind_ok hop, hrun]

/-! ## Logs -/

structure Logs (execute : Operation → Stopping State Stop Unit)
    (log : State → List Operation) : Prop where
  done : ∀ operation s next,
    execute operation s = (.ok (), next) → log next = log s ++ [operation]
  stopped : ∀ operation s next reason,
    execute operation s = (.error reason, next) → log next = log s

/-- The log of a script that ends is the script, and the log of one that stops
is the beginning of the script. -/
theorem Logs.runAll
    {log : State → List Operation} (h : Logs execute log)
    (script : List Operation) (s : State) :
    ∃ performed, performed <+: script ∧
      log (runAll execute script s).2 = log s ++ performed ∧
      ∀ value, (Stopping.runAll execute script s).1 = .ok value →
        performed = script := by
  induction script generalizing s with
  | nil => exact ⟨[], List.prefix_refl _, (List.append_nil _).symm, fun _ _ => rfl⟩
  | cons operation script ih =>
      rw [Stopping.runAll]
      cases hop : execute operation s with
      | mk outcome mid =>
          cases outcome with
          | error reason =>
              refine ⟨[], List.nil_prefix, ?_, ?_⟩
              · rw [bind_error hop, List.append_nil]
                exact h.stopped operation s mid reason hop
              · intro value hvalue
                rw [bind_error hop] at hvalue
                cases hvalue
          | ok ended =>
              obtain ⟨performed, hlead, hlog, hall⟩ := ih mid
              refine ⟨operation :: performed, ?_, ?_, ?_⟩
              · exact List.cons_prefix_cons.2 ⟨rfl, hlead⟩
              · rw [bind_ok hop, hlog, h.done operation s mid hop]
                simp
              · intro value hvalue
                rw [bind_ok hop] at hvalue
                rw [hall value hvalue]

end Stopping

end ClOs
