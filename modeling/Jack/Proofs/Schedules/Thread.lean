import Jack.Build.Run

/-!
# Builds as threads

A build runs in every host. One of them is `Thread`: what a program does, one action after the
other, for every answer that it may get, and where it runs jobs side by side. Nothing is carried out
yet, so the actions of several threads can be carried out in any order.
-/

namespace Jack

/-! ## Actions -/

/-- One use of the surroundings. Each happens at one moment. -/
inductive Action where
  | look (p : Path)
  | list (p : Path)
  | read (p : Path)
  | write (p : Path) (bytes : ByteArray)
  | print (stream : Stream) (text : String)
  | now
  | newAlarm
  | raise (a : Alarm)
  | isRaised (a : Alarm)

namespace Action

/-- What an action is answered with. -/
abbrev Answer : Action → Type
  | look _ => Except Fault EntryKind
  | list _ => Except Fault (List (String × EntryKind))
  | read _ => Except Fault ByteArray
  | write _ _ => Except Fault Unit
  | print _ _ => Unit
  | now => Nat
  | newAlarm => Alarm
  | raise _ => Unit
  | isRaised _ => Bool

/-- Carries an action out in a host. -/
def perform {m : Type → Type} [Host m] : (a : Action) → m a.Answer
  | look p => Host.look p
  | list p => Host.list p
  | read p => Host.read p
  | write p bytes => Host.write p bytes
  | print stream text => Host.print stream text
  | now => Host.now
  | newAlarm => Host.newAlarm
  | raise a => Host.raise a
  | isRaised a => Host.isRaised a

/-- Whether an action looks at files or changes them. -/
def usesFiles : Action → Bool
  | look _ | list _ | read _ | write _ _ => true
  | print _ _ | now | newAlarm | raise _ | isRaised _ => false

end Action

/-- An action and its answer. -/
structure Event where
  action : Action
  answer : action.Answer

/-- What can happen when an action is carried out: the session changes as it does in a build without
other jobs. Only the clock is free to answer with any time. -/
structure Session.Does (s : Session) (e : Event) (s' : Session) : Prop where
  state : ((e.action.perform : StateM Session _) s).2 = s'
  answer : e.action = .now ∨ ((e.action.perform : StateM Session _) s).1 = e.answer

theorem Session.exists_does (s : Session) (action : Action) :
    ∃ answer s', s.Does ⟨action, answer⟩ s' :=
  ⟨((action.perform : StateM Session _) s).1, _, rfl, .inr rfl⟩

namespace Session

variable {s s' : Session}

theorem does_iff {action : Action} (timeless : action ≠ .now) {answer result : action.Answer}
    {final : Session} (run : (action.perform : StateM Session _) s = (result, final)) :
    s.Does ⟨action, answer⟩ s' ↔ answer = result ∧ s' = final := by
  constructor
  · rintro ⟨state, eq | answered⟩
    · exact absurd eq timeless
    · rw [run] at state answered
      exact ⟨answered.symm, state.symm⟩
  · rintro ⟨rfl, rfl⟩
    exact ⟨congrArg Prod.snd run, .inr (congrArg Prod.fst run)⟩

theorem does_read {p : Path} {answer : Except Fault ByteArray} :
    s.Does ⟨.read p, answer⟩ s' ↔ answer = s.tree.read p ∧ s' = s :=
  does_iff (by simp) rfl

section Write

variable {p : Path} {bytes : ByteArray} {tree : FileTree} {fault : Fault}

theorem write_of_ok (h : s.tree.write p bytes = .ok tree) :
    (Host.write p bytes : StateM Session _) s = (.ok (), { s with tree }) := by
  simp only [Host.write, modifyGet, MonadStateOf.modifyGet, StateT.modifyGet, h]
  rfl

theorem write_of_error (h : s.tree.write p bytes = .error fault) :
    (Host.write p bytes : StateM Session _) s = (.error fault, s) := by
  simp only [Host.write, modifyGet, MonadStateOf.modifyGet, StateT.modifyGet, h]
  rfl

theorem does_write_of_ok {answer : Except Fault Unit} (h : s.tree.write p bytes = .ok tree) :
    s.Does ⟨.write p bytes, answer⟩ s' ↔ answer = .ok () ∧ s' = { s with tree } :=
  does_iff (by simp) (write_of_ok h)

theorem does_write_of_error {answer : Except Fault Unit}
    (h : s.tree.write p bytes = .error fault) :
    s.Does ⟨.write p bytes, answer⟩ s' ↔ answer = .error fault ∧ s' = s :=
  does_iff (by simp) (write_of_error h)

end Write

/-- Only writing changes files. -/
theorem Does.tree_eq {e : Event} (h : s.Does e s') (kept : ∀ p bytes, e.action ≠ .write p bytes) :
    s'.tree = s.tree := by
  obtain ⟨action, answer⟩ := e
  cases action with
  | write p bytes => exact absurd rfl (kept p bytes)
  | print stream text => cases stream <;> exact h.state ▸ rfl
  | _ => exact h.state ▸ rfl

section Alarms

variable {a : Alarm} {raised : Bool}

/-- An alarm exists, and it was raised or not. -/
def Shows (s : Session) (a : Alarm) (raised : Bool) : Prop :=
  s.alarms[a.number]? = some raised

theorem Shows.eq {other : Bool} (h : s.Shows a raised) (h' : s.Shows a other) : raised = other :=
  Option.some.inj (h.symm.trans h')

theorem Does.shows_new (h : s.Does ⟨.newAlarm, a⟩ s') : s'.Shows a false := by
  obtain ⟨rfl, rfl⟩ := (does_iff (by simp) rfl).1 h
  exact List.getElem?_concat_length

theorem Does.shows_raised (h : s.Does ⟨.raise a, ()⟩ s') (shows : s.Shows a raised) :
    s'.Shows a true := by
  obtain ⟨-, rfl⟩ := (does_iff (by simp) rfl).1 h
  exact List.getElem?_set_self (List.getElem?_eq_some_iff.1 shows).1

theorem does_isRaised {answer : Bool} (shows : s.Shows a raised) :
    s.Does ⟨.isRaised a, answer⟩ s' ↔ answer = raised ∧ s' = s := by
  have told : s.alarms.getD a.number false = raised := by
    rw [List.getD_eq_getElem?_getD, shows, Option.getD_some]
  exact told ▸ does_iff (by simp) rfl

/-- Only raising an alarm changes it. -/
theorem Does.shows {e : Event} (h : s.Does e s') (shows : s.Shows a raised)
    (kept : e.action ≠ .raise a) : s'.Shows a raised := by
  obtain ⟨action, answer⟩ := e
  cases action with
  | newAlarm =>
    obtain ⟨-, rfl⟩ := (does_iff (by simp) rfl).1 h
    exact (List.getElem?_append_left (List.getElem?_eq_some_iff.1 shows).1).trans shows
  | raise other =>
    obtain ⟨-, rfl⟩ := (does_iff (by simp) rfl).1 h
    have apart : other.number ≠ a.number := by
      intro same
      exact kept (congrArg (fun number => Action.raise ⟨number⟩) same)
    exact (List.getElem?_set_ne apart).trans shows
  | print stream text => cases stream <;> exact h.state ▸ shows
  | write p bytes =>
    cases written : s.tree.write p bytes with
    | ok tree => exact ((does_write_of_ok written).1 h).2 ▸ shows
    | error fault => exact ((does_write_of_error written).1 h).2 ▸ shows
  | _ => exact h.state ▸ shows

end Alarms

end Session

/-! ## Threads -/

/-- What a program does. -/
inductive Thread : Type → Type 1 where
  | done {α : Type} (result : α) : Thread α
  | act {α : Type} (action : Action) (next : action.Answer → Thread α) : Thread α
  /-- Runs jobs, at most so many at a time, and goes on with their results. -/
  | fork {α β : Type} (workers jobs : Nat) (job : Fin jobs → Thread β) (next : List β → Thread α) :
      Thread α

namespace Thread

variable {α β : Type}

/-- One thread of actions and then another. -/
def bind : Thread α → (α → Thread β) → Thread β
  | done result, f => f result
  | act action next, f => act action fun answer => (next answer).bind f
  | fork workers jobs job next, f => fork workers jobs job fun results => (next results).bind f

instance : Monad Thread where
  pure := done
  bind := bind

instance : Host Thread where
  look p := act (.look p) done
  list p := act (.list p) done
  read p := act (.read p) done
  write p bytes := act (.write p bytes) done
  print stream text := act (.print stream text) done
  now := act .now done
  newAlarm := act .newAlarm done
  raise a := act (.raise a) done
  isRaised a := act (.isRaised a) done
  runJobs workers jobs := fork workers jobs.length jobs.get done

end Thread

end Jack
