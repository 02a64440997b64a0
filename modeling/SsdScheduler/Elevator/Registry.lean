import Mathlib.Data.List.DropRight
import SsdScheduler.Framework.Machine

/-!
# The elevator types, their modules and the queues that use them (`elevator.c`)

A scheduler is a module that registers one `elevator_type`. A queue gets its scheduler when it is set up, and another
one when a name is written to its `scheduler` file. Both take a reference on the module, may wait for a module to be
loaded, and run the scheduler's init function; other queues and the module loader act in between. The schedulers of
the repository fail to initialise a queue in one of two ways.
-/

namespace SsdScheduler.Registry

open Framework

/-- An `elevator_type`, and the module that owns it. -/
abbrev Ty := Nat

abbrev QueueId := Nat

def elvNameMax : Nat := 16

/-- What does not change: the types, and how the kernel was built and booted. -/
structure Config where
  elevatorName : Ty → List Char
  /-- The type is part of the kernel, so that `elevator_owner` is `NULL`. -/
  builtin : Ty → Bool
  /-- `elevator=` on the command line. -/
  bootParam : List Char
  /-- `CONFIG_DEFAULT_IOSCHED`. -/
  defaultIosched : List Char

/-- `elevator_setup`. -/
def Config.chosenElevator (c : Config) : List Char := c.bootParam.take (elvNameMax - 1)

/-- `elevator_queue`. -/
structure ElevatorQueue where
  type : Ty
  registered : Bool
  deriving DecidableEq

/-- Who called `elevator_get`. -/
inductive Caller
  | init
  /-- `__elevator_change`, with `elevator_name` as `strstrip` leaves it. -/
  | change (elevatorName : List Char)
  deriving DecidableEq

/-- How far a queue has got, with `sysfs_lock` held unless it is idle. -/
inductive Pc
  | idle
  /-- `request_module` is running. -/
  | loading (name : List Char) (caller : Caller)
  /-- `elevator_get` has returned a type. -/
  | holding (e : Ty) (caller : Caller)
  deriving DecidableEq

def Pc.isLoading : Pc → Bool
  | .loading _ _ => true
  | _ => false

/-- `elevator_init` is about to call the init function. -/
def Pc.isInitializing : Pc → Bool
  | .holding _ .init => true
  | _ => false

/-- `__elevator_change` is about to compare the names. -/
def Pc.isChanging : Pc → Bool
  | .holding _ (.change _) => true
  | _ => false

/-- A `request_queue`, as far as its scheduler is concerned. -/
structure Queue where
  elevator : Option ElevatorQueue
  pc : Pc
  deriving DecidableEq

structure Schedulers where
  elvList : List Ty
  /-- The module's reference count, with the reference that it has on itself until it is stopped. -/
  refcnt : Ty → Nat
  going : Ty → Bool
  queues : QueueId → Queue

/-- How an init function ends: all is well, `elevator_alloc` fails, or the allocation of the scheduler's own data. -/
inductive InitResult
  | ok
  | early
  | late
  deriving DecidableEq

inductive Act
  /-- Load the module (or, for a built-in type, reach its initcall). -/
  | insmod (e : Ty)
  /-- `delete_module`, up to the module's exit function. -/
  | stop (e : Ty)
  /-- The module's exit function. -/
  | exit (e : Ty)
  | elevatorInit (q : QueueId) (name : Option (List Char))
  | elevatorChange (q : QueueId) (name : List Char)
  /-- `request_module` returns. -/
  | loaded (q : QueueId)
  /-- The init function called by `elevator_init`. -/
  | initFn (q : QueueId) (r : InitResult)
  /-- The rest of `__elevator_change`; `reg` and `rereg` are what `kobject_add` returns for the new and the old queue. -/
  | switch (q : QueueId) (r : InitResult) (reg rereg : Int)
  /-- The block layer registers the queue. -/
  | registerQueue (q : QueueId) (reg : Int)
  | unregisterQueue (q : QueueId)
  /-- The block layer gives the queue up. -/
  | elevatorExit (q : QueueId)

/-- What a step returns, if the call is over, and the type whose init function was called. -/
structure Out where
  ret : Option Int
  initialized : Option Ty
  deriving DecidableEq

def enxio : Int := -6
def enomem : Int := -12
def ebusy : Int := -16
def einval : Int := -22

/-- `isspace`. -/
def isspace (x : Char) : Bool := x = ' ' || (9 ≤ x.toNat && x.toNat ≤ 13) || x.toNat = 160

/-- What `strstrip` leaves in the buffer. -/
def stripTail (str : List Char) : List Char := str.rdropWhile isspace

def skipSpaces (str : List Char) : List Char := str.dropWhile isspace

namespace Schedulers

variable (c : Config) (s : Schedulers)

def setQueue (q : QueueId) (x : Queue) : Schedulers := { s with queues := Function.update s.queues q x }

def elevatorFind (name : List Char) : Option Ty := s.elvList.find? fun e => c.elevatorName e = name

/-- `module_put`, which does not go below zero. -/
def elevatorPut (e : Ty) : Schedulers :=
  if c.builtin e then s else { s with refcnt := Function.update s.refcnt e (s.refcnt e - 1) }

def tryModuleGet (e : Ty) : Option Schedulers :=
  if c.builtin e then some s
  else if !s.going e && s.refcnt e ≠ 0 then some { s with refcnt := Function.update s.refcnt e (s.refcnt e + 1) }
  else none

/-- `elevator_get` where it need not load a module. -/
def elevatorGet (name : List Char) : Option (Ty × Schedulers) := do
  let e ← s.elevatorFind c name
  let s ← s.tryModuleGet c e
  some (e, s)

/-- `elevator_get` after `request_module`, or where the type is there. -/
def got (q : QueueId) (name : List Char) (caller : Caller) : Out × Schedulers :=
  match s.elevatorGet c name with
  | some (e, s) => (⟨none, none⟩, s.setQueue q { s.queues q with pc := .holding e caller })
  | none => (⟨some einval, none⟩, s.setQueue q { s.queues q with pc := .idle })

/-- `elevator_get` with `try_loading`. -/
def getLoading (q : QueueId) (name : List Char) (caller : Caller) : Out × Schedulers :=
  match s.elevatorFind c name with
  | none => (⟨none, none⟩, s.setQueue q { s.queues q with pc := .loading name caller })
  | some _ => s.got c q name caller

/-- The types that `elevator_init` tries without a name; with none of them it follows a null pointer. -/
def elevatorDefault : Option (Ty × Schedulers) :=
  (if c.chosenElevator = [] then none else s.elevatorGet c c.chosenElevator)
    <|> s.elevatorGet c c.defaultIosched <|> s.elevatorGet c ['n', 'o', 'o', 'p']

/-- `elv_register`. -/
def elvRegister (e : Ty) : Int × Schedulers :=
  match s.elevatorFind c (c.elevatorName e) with
  | some _ => (ebusy, s)
  | none => (0, { s with elvList := s.elvList ++ [e] })

/-- `elv_unregister`. -/
def elvUnregister (e : Ty) : Schedulers := { s with elvList := s.elvList.erase e }

/-- `elv_register_queue`. -/
def elvRegisterQueue (q : QueueId) (reg : Int) : Schedulers :=
  match (s.queues q).elevator with
  | none => s
  | some e => s.setQueue q { s.queues q with elevator := some { e with registered := e.registered || reg = 0 } }

def elvUnregisterQueue (q : QueueId) : Schedulers :=
  match (s.queues q).elevator with
  | none => s
  | some e => s.setQueue q { s.queues q with elevator := some { e with registered := false } }

/-- `elevator_init_fn`, with what `elevator_release` does when it gives its own queue up. -/
def elevatorInitFn (q : QueueId) (e : Ty) : InitResult → Int × Schedulers
  | .ok => (0, s.setQueue q { s.queues q with elevator := some ⟨e, false⟩ })
  | .early => (enomem, s)
  | .late => (enomem, s.elevatorPut c e)

/-- `fail_init` in `elevator_switch`. -/
def restore (q : QueueId) (old : ElevatorQueue) (rereg : Int) : Schedulers :=
  (s.setQueue q { s.queues q with elevator := some old }).elvRegisterQueue q rereg

/-- `elevator_switch`. -/
def elevatorSwitch (q : QueueId) (old : ElevatorQueue) (e : Ty) (r : InitResult) (reg rereg : Int) : Int × Schedulers :=
  let s := if old.registered then s.elvUnregisterQueue q else s
  let unregistered := { old with registered := false }
  let (err, s) := s.elevatorInitFn c q e r
  if err ≠ 0 then (err, s.restore q unregistered rereg)
  else if old.registered then
    let s := s.elvRegisterQueue q reg
    if reg ≠ 0 then (reg, (s.elevatorPut c e).restore q unregistered rereg)
    else (0, s.elevatorPut c old.type)
  else (0, s.elevatorPut c old.type)

/-- `__elevator_change` from the comparison of the names on. -/
def switchTo (q : QueueId) (e : Ty) (elevatorName : List Char) (r : InitResult) (reg rereg : Int) :
    Option (Out × Schedulers) := do
  let old ← (s.queues q).elevator
  let s := s.setQueue q { s.queues q with pc := .idle }
  if elevatorName = c.elevatorName old.type then
    some (⟨some 0, none⟩, s.elevatorPut c e)
  else
    let (ret, s) := s.elevatorSwitch c q old e r reg rereg
    some (⟨some ret, some e⟩, s)

/-- `elv_iosched_show`; `stackable` is what `blk_queue_stackable` says of the queue. -/
def elvIoschedShow (q : QueueId) (stackable : Bool) : List Char :=
  match (s.queues q).elevator with
  | none => ['n', 'o', 'n', 'e', '\n']
  | some elv =>
    if stackable then
      (s.elvList.flatMap fun e =>
        if c.elevatorName elv.type = c.elevatorName e then '[' :: c.elevatorName e ++ [']', ' ']
        else c.elevatorName e ++ [' ']) ++ ['\n']
    else ['n', 'o', 'n', 'e', '\n']

def legal : Act → Prop
  | .insmod e => e ∉ s.elvList
  | .stop e => e ∈ s.elvList ∧ c.builtin e = false ∧ s.going e = false ∧ s.refcnt e = 1
  | .exit e => e ∈ s.elvList ∧ s.going e = true
  | .elevatorInit q _ | .elevatorChange q _ => (s.queues q).pc = .idle
  | .loaded q => (s.queues q).pc.isLoading = true
  | .initFn q _ => (s.queues q).pc.isInitializing = true
  | .switch q _ _ _ => (s.queues q).pc.isChanging = true
  | .registerQueue q _ | .unregisterQueue q | .elevatorExit q =>
    (s.queues q).pc = .idle ∧ (s.queues q).elevator.isSome = true

instance : (act : Act) → Decidable (s.legal c act)
  | .insmod e => inferInstanceAs (Decidable (e ∉ s.elvList))
  | .stop e => inferInstanceAs (Decidable (e ∈ s.elvList ∧ c.builtin e = false ∧ s.going e = false ∧ s.refcnt e = 1))
  | .exit e => inferInstanceAs (Decidable (e ∈ s.elvList ∧ s.going e = true))
  | .elevatorInit q _ | .elevatorChange q _ => inferInstanceAs (Decidable ((s.queues q).pc = .idle))
  | .loaded q => inferInstanceAs (Decidable ((s.queues q).pc.isLoading = true))
  | .initFn q _ => inferInstanceAs (Decidable ((s.queues q).pc.isInitializing = true))
  | .switch q _ _ _ => inferInstanceAs (Decidable ((s.queues q).pc.isChanging = true))
  | .registerQueue q _ | .unregisterQueue q | .elevatorExit q =>
    inferInstanceAs (Decidable ((s.queues q).pc = .idle ∧ (s.queues q).elevator.isSome = true))

def step : Act → Option (Out × Schedulers)
  | .insmod e =>
    let (err, s) := s.elvRegister c e
    some (⟨some err, none⟩, if err ≠ 0 then s else { s with refcnt := Function.update s.refcnt e 1 })
  | .stop e =>
    some (⟨none, none⟩, { s with refcnt := Function.update s.refcnt e 0, going := Function.update s.going e true })
  | .exit e => some (⟨some 0, none⟩, { s.elvUnregister e with going := Function.update s.going e false })
  | .elevatorInit q name =>
    if (s.queues q).elevator.isSome then some (⟨some 0, none⟩, s)
    else
      match name with
      | some name => some (s.getLoading c q name .init)
      | none => do
        let (e, s) ← s.elevatorDefault c
        some (⟨none, none⟩, s.setQueue q { s.queues q with pc := .holding e .init })
  | .elevatorChange q name =>
    if (s.queues q).elevator.isNone then some (⟨some enxio, none⟩, s)
    else
      let elevatorName := stripTail (name.take (elvNameMax - 1))
      some (s.getLoading c q (skipSpaces elevatorName) (.change elevatorName))
  | .loaded q =>
    match (s.queues q).pc with
    | .loading name caller => some (s.got c q name caller)
    | _ => none
  | .initFn q r =>
    match (s.queues q).pc with
    | .holding e .init =>
      let s := s.setQueue q { s.queues q with pc := .idle }
      let (err, s) := s.elevatorInitFn c q e r
      some (⟨some err, some e⟩, if err ≠ 0 then s.elevatorPut c e else s)
    | _ => none
  | .switch q r reg rereg =>
    match (s.queues q).pc with
    | .holding e (.change name) => s.switchTo c q e name r reg rereg
    | _ => none
  | .registerQueue q reg => some (⟨some reg, none⟩, s.elvRegisterQueue q reg)
  | .unregisterQueue q => some (⟨none, none⟩, s.elvUnregisterQueue q)
  | .elevatorExit q =>
    match (s.queues q).elevator with
    | some e => some (⟨none, none⟩, (s.setQueue q ⟨none, .idle⟩).elevatorPut c e.type)
    | none => none

end Schedulers

def machine (c : Config) : Machine Schedulers Act Out where
  legal := Schedulers.legal c
  step := Schedulers.step c

instance (c : Config) (s : Schedulers) (act : Act) : Decidable ((machine c).legal s act) :=
  inferInstanceAs (Decidable (s.legal c act))

/-- No module is loaded, and no queue is set up. -/
def init : Schedulers := ⟨[], fun _ => 0, fun _ => false, fun _ => ⟨none, .idle⟩⟩

end SsdScheduler.Registry
