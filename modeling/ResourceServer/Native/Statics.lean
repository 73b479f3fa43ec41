import ResourceServer.Native.Dispatch

/-!
# The statics and the end of the process

`AsioIoServicePool` and `LogicSystem` as the function-local statics of
`Singleton::get_instance`: each is constructed where it is first used, and behind
`main` they are destroyed latest first, by the main thread, while the threads of
the pool go on. A read handler that has a whole message is on its way to
`post_message_to_logic_system`; a handler taken from a service runs to its end.
-/

namespace ResourceServer

/-- The classes with a static instance. -/
inductive StaticObject
  | asioIoServicePool
  | logicSystem
  deriving DecidableEq, Repr

/-- Where `AsioIoServicePool` stands. -/
inductive PoolPc
  | notConstructed
  /-- Its threads take handlers. -/
  | running
  /-- `stop` has stopped every service: no thread takes another handler. -/
  | stopped
  /-- The threads are joined. -/
  | joined
  deriving DecidableEq, Repr

/-- The statics, and the handlers that use them. -/
structure Statics (ι : Type*) where
  /-- The statics whose destructor has not begun, latest first. -/
  atExit : List StaticObject
  /-- The static whose destructor is running. -/
  destroying : Option StaticObject
  /-- `main` has returned. -/
  exiting : Bool
  pool : PoolPc
  /-- `LogicSystem`, once it is constructed. -/
  logic : Option (Dispatch ι)
  /-- The messages whose handlers have yet to post them. -/
  posting : List (LogicNode ι)
  /-- The messages the sessions have completed. -/
  completed : List (LogicNode ι)
  /-- The nodes posted behind the last step of the worker. -/
  late : List (LogicNode ι)

inductive StaticsAction (ι : Type*)
  /-- `CServer::start` uses the pool. -/
  | start
  /-- The read handler of a session has a whole message. -/
  | complete (node : LogicNode ι)
  /-- Such a handler calls `LogicSystem::get_instance`. -/
  | getInstance
  /-- Such a handler calls `post_message_to_logic_system`, and ends. -/
  | post (node : LogicNode ι)
  /-- The logic worker takes its next step. -/
  | work
  /-- The logic worker wakes without a notification. -/
  | wake
  /-- `main` returns. -/
  | exit
  /-- The main thread takes the next step of the destructors. -/
  | destroy

variable {ι : Type*}

/-- The steps of threads that take no new message. -/
def StaticsAction.Draining : StaticsAction ι → Prop
  | .post _ | .work | .wake => True
  | .start | .complete _ | .getInstance | .exit | .destroy => False

namespace Statics

/-- The process at the start of `main`. -/
def init : Statics ι := ⟨[], none, false, .notConstructed, none, [], [], []⟩

/-- The destructors have all run. -/
def Ended (s : Statics ι) : Prop := s.exiting = true ∧ s.destroying = none ∧ s.atExit = []

instance (s : Statics ι) : Decidable s.Ended :=
  inferInstanceAs (Decidable (_ ∧ _ ∧ _))

/-- The handler calls made. -/
def invoked (s : Statics ι) : List (Invocation ι) :=
  match s.logic with
  | none => []
  | some d => d.invoked

/-- The next step of the destructors: behind one the next begins. -/
def destroy (s : Statics ι) : Option (Statics ι) :=
  match s.destroying, s.atExit with
  | none, [] => none
  | none, .logicSystem :: rest =>
    (s.logic.bind Dispatch.destruct).map fun d =>
      { s with atExit := rest, destroying := some .logicSystem, logic := some d }
  | none, .asioIoServicePool :: rest =>
    some { s with atExit := rest, destroying := some .asioIoServicePool, pool := .stopped }
  | some .logicSystem, _ =>
    (s.logic.bind Dispatch.destruct).map fun d =>
      { s with
        destroying := if d.destructor = .joined then none else some .logicSystem
        logic := some d }
  | some .asioIoServicePool, _ =>
    if s.posting.isEmpty then some { s with destroying := none, pool := .joined } else none

/-- A step of the destructors, by the one that runs or begins. -/
theorem destroy_cases {s t : Statics ι} (h : s.destroy = some t) :
    (∃ rest d d', s.destroying = none ∧ s.atExit = .logicSystem :: rest ∧ s.logic = some d ∧
        d.destruct = some d' ∧
        t = { s with atExit := rest, destroying := some .logicSystem, logic := some d' }) ∨
      (∃ rest, s.destroying = none ∧ s.atExit = .asioIoServicePool :: rest ∧
        t = { s with atExit := rest, destroying := some .asioIoServicePool, pool := .stopped }) ∨
      (∃ d d', s.destroying = some .logicSystem ∧ s.logic = some d ∧ d.destruct = some d' ∧
        t = { s with
          destroying := if d'.destructor = .joined then none else some .logicSystem
          logic := some d' }) ∨
      (s.destroying = some .asioIoServicePool ∧ s.posting = [] ∧
        t = { s with destroying := none, pool := .joined }) := by
  unfold destroy at h
  split at h
  · contradiction
  · rename_i rest hnone hexit
    obtain ⟨d', hd', rfl⟩ := Option.map_eq_some_iff.mp h
    obtain ⟨d, hd, hdd'⟩ := Option.bind_eq_some_iff.mp hd'
    exact Or.inl ⟨rest, d, d', hnone, hexit, hd, hdd', rfl⟩
  · rename_i rest hnone hexit
    cases h
    exact Or.inr (Or.inl ⟨rest, hnone, hexit, rfl⟩)
  · rename_i hdestroying
    obtain ⟨d', hd', rfl⟩ := Option.map_eq_some_iff.mp h
    obtain ⟨d, hd, hdd'⟩ := Option.bind_eq_some_iff.mp hd'
    exact Or.inr (Or.inr (Or.inl ⟨d, d', hdestroying, hd, hdd', rfl⟩))
  · rename_i hdestroying
    obtain ⟨hempty, ⟨⟩⟩ := Option.ite_none_right_eq_some.mp h
    exact Or.inr (Or.inr (Or.inr ⟨hdestroying, List.isEmpty_iff.mp hempty, rfl⟩))

variable [DecidableEq ι]

/-- One step of one of the threads. A post behind the worker's last step is recorded:
the system it reaches is about to be destroyed, or is destroyed. -/
def step (s : Statics ι) : StaticsAction ι → Option (Statics ι)
  | .start =>
    if s.exiting then none
    else if s.pool = .notConstructed then
      some { s with atExit := .asioIoServicePool :: s.atExit, pool := .running }
    else some s
  | .complete node =>
    if s.pool = .running then
      some { s with posting := s.posting ++ [node], completed := s.completed ++ [node] }
    else none
  | .getInstance =>
    if s.posting.isEmpty then none
    else if s.logic.isNone then
      some { s with atExit := .logicSystem :: s.atExit, logic := some Dispatch.init }
    else some s
  | .post node =>
    if node ∈ s.posting then
      s.logic.bind fun d => (d.post node).map fun d' =>
        { s with
          logic := some d'
          posting := s.posting.erase node
          late := if d.worker = .left then s.late ++ [node] else s.late }
    else none
  | .work =>
    s.logic.bind fun d => d.dealMessage.map fun d' => { s with logic := some d' }
  | .wake =>
    s.logic.bind fun d => (d.step .wake).map fun d' => { s with logic := some d' }
  | .exit => if s.exiting then none else some { s with exiting := true }
  | .destroy => if s.exiting then s.destroy else none

/-- A message on its way is posted, in time or behind the worker. -/
theorem post_cases {s t : Statics ι} {node : LogicNode ι} (h : s.step (.post node) = some t) :
    node ∈ s.posting ∧ ∃ d d', s.logic = some d ∧ d.post node = some d' ∧
      t = { s with
        logic := some d'
        posting := s.posting.erase node
        late := if d.worker = .left then s.late ++ [node] else s.late } := by
  obtain ⟨hmem, h⟩ := Option.ite_none_right_eq_some.mp h
  obtain ⟨d, hd, h⟩ := Option.bind_eq_some_iff.mp h
  obtain ⟨d', hdd', rfl⟩ := Option.map_eq_some_iff.mp h
  exact ⟨hmem, d, d', hd, hdd', rfl⟩

/-- A step of the worker moves the logic system alone. -/
theorem work_cases {s t : Statics ι} (h : s.step .work = some t) :
    ∃ d d', s.logic = some d ∧ d.dealMessage = some d' ∧ t = { s with logic := some d' } := by
  obtain ⟨d, hd, h⟩ := Option.bind_eq_some_iff.mp h
  obtain ⟨d', hdd', rfl⟩ := Option.map_eq_some_iff.mp h
  exact ⟨d, d', hd, hdd', rfl⟩

/-- So does a wake-up. -/
theorem wake_cases {s t : Statics ι} (h : s.step .wake = some t) :
    ∃ d d', s.logic = some d ∧ d.step .wake = some d' ∧ t = { s with logic := some d' } := by
  obtain ⟨d, hd, h⟩ := Option.bind_eq_some_iff.mp h
  obtain ⟨d', hdd', rfl⟩ := Option.map_eq_some_iff.mp h
  exact ⟨d, d', hd, hdd', rfl⟩

end Statics

end ResourceServer
