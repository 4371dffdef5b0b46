import AstralOS.Cpu.RoundTrip
import AstralOS.Memory.KmallocClients
import AstralOS.Sched.Scheduler

/-! The scheduler on the machine: task control blocks in the kernel heap, the first dispatch
by a branch and the others by `context_switch`. -/
namespace AstralOS.Sched
open Foundation Foundation.Aarch64 AstralOS.Kmalloc AstralOS.Cpu

/-! `tcb_t`: `id` at 0, `context` at 8, `state` at 112, `stack_base` at 120, `stack_size` at
128, `ttbr0_el1` at 136. In `cpu_context_t` `sp` is first, then `lr`, and `fp` is last at 96. -/

def tcbSize : BitVec 64 := 144#64
def contextSize : Nat := 104
def pageSize : BitVec 64 := 4096#64

def contextOf (task : Addr) : Addr := task + BitVec.ofNat 64 8

def get (w n : Nat) (s : System) (p : Addr) (k : Nat) : BitVec w :=
  load w n s.mem (p + BitVec.ofNat 64 k)

def put {w : Nat} (n : Nat) (s : System) (p : Addr) (k : Nat) (v : BitVec w) : System :=
  s.withMem (store n s.mem (p + BitVec.ofNat 64 k) v)

/-- `memset(p, 0, n)` on memory. -/
def zeroed (m : Memory) (p : Addr) (n : Nat) : Memory := fun x =>
  if (x - p).toNat < n then 0 else m x

/-- `kernelL1` is `kernel_l1_page_table`, copied entry by entry over zeros. -/
def pagetable (kernelL1 : Nat → BitVec 64) (m : Memory) (p : Addr) : Memory :=
  (List.range 512).foldl (fun m i => store 8 m (p + BitVec.ofNat 64 (8 * i)) (kernelL1 i))
    (zeroed m p 4096)

def vmCreateTaskPagetable (kernelL1 : Nat → BitVec 64) (s : System) : Option (Addr × System) :=
  (s.alloc pageSize).map fun r =>
    if r.1 = 0#64 then r
    else (r.1, r.2.withMem (pagetable kernelL1 r.2.mem r.1))

/-- What a call of `sched_create_task` gives a task. -/
structure Task where
  tcb : Addr
  id : BitVec 32
  func : Addr
  stackBase : BitVec 64
  stackSize : BitVec 64
  ttbr0El1 : BitVec 64

/-- From the page table on; no task when it cannot be had. -/
def createPagetable (kernelL1 : Nat → BitVec 64) (t : Task) (s : System) :
    Option (Option Task × System) :=
  (vmCreateTaskPagetable kernelL1 s).bind fun r =>
    let s := put 8 r.2 t.tcb 136 r.1
    if get 64 8 s t.tcb 136 = 0#64 then
      (s.call (.kfree (get 64 8 s t.tcb 120))).bind fun s =>
        (s.call (.kfree t.tcb)).map fun s => (none, s)
    else some (some { t with ttbr0El1 := r.1 }, s)

/-- The initial context: `sp` and `fp` at the top of the stack, `lr` at the entry. -/
def putContext (t : Task) (s : System) : System :=
  let s := put 8 s t.tcb 128 t.stackSize
  let s := put 8 s t.tcb 8 (get 64 8 s t.tcb 120 + t.stackSize - 16#64)
  let s := put 8 s t.tcb 16 t.func
  put 8 s t.tcb 104 (get 64 8 s t.tcb 120 + t.stackSize - 16#64)

/-- From the stack on. -/
def createStack (kernelL1 : Nat → BitVec 64) (t : Task) (s : System) :
    Option (Option Task × System) :=
  (s.alloc t.stackSize).bind fun r =>
    let s := put 8 r.2 t.tcb 120 r.1
    if get 64 8 s t.tcb 120 = 0#64 then (s.call (.kfree t.tcb)).map fun s => (none, s)
    else createPagetable kernelL1 { t with stackBase := r.1 } (putContext { t with stackBase := r.1 } s)

/-- `sched_create_task` up to its call of `sched_add_task`. -/
def createTask (kernelL1 : Nat → BitVec 64) (numTasks : Int) (func : Addr) (stackSize : BitVec 64)
    (s : System) : Option (Option Task × System) :=
  (s.alloc tcbSize).bind fun r =>
    if r.1 = 0#64 then some (none, r.2)
    else
      let t : Task := ⟨r.1, BitVec.ofInt 32 numTasks, func, 0#64, stackSize, 0#64⟩
      createStack kernelL1 t (put 4 r.2 t.tcb 0 t.id)

/-- One dispatch: the list entry, and where it goes on. -/
structure Entry where
  index : Int
  pc : Addr
  sp : BitVec 64

structure Kernel where
  heap : System
  sched : Scheduler
  ttbr0El1 : BitVec 64
  /-- The tasks behind `task_list`, as they were created. -/
  tasks : List Task
  entered : List Entry
  /-- The old context of each switch and the ranges the switch stored to. -/
  saves : List (Addr × List (Addr × Nat))

/-- `regs` are the registers at the call of `context_switch`, if it comes to one. -/
inductive Call where
  | createTask (func : Addr) (stackSize : BitVec 64)
  | schedule (regs : Regs)
  | yield (regs : Regs)

def switchOf (old new : Addr) (regs : Regs) : Switch := ⟨contextOf old, contextOf new, regs⟩

/-- Control leaves the scheduler; `ttbr0_el1` has been loaded from the new task. -/
def Kernel.leave (k : Kernel) (regs : Regs) (s : Scheduler) : Control → Kernel
  | .branches task => { k with
      sched := s
      ttbr0El1 := get 64 8 k.heap task 136
      entered := k.entered ++ [⟨s.currentTaskIndex, get 64 8 k.heap task 16, get 64 8 k.heap task 8⟩] }
  | .switches old new =>
      let c := switchOf old new regs
      let start : State := { c.args with mem := k.heap.mem, pc := 0 }
      let t := run contextSwitch start
      { k with
        heap := k.heap.withMem t.mem
        sched := s
        ttbr0El1 := get 64 8 k.heap new 136
        entered := k.entered ++ [⟨s.currentTaskIndex, t.pc, t.sp⟩]
        saves := k.saves ++ [(c.old, writes contextSwitch start)] }
  | _ => { k with sched := s }

def Kernel.create (kernelL1 : Nat → BitVec 64) (k : Kernel) (func : Addr) (stackSize : BitVec 64) :
    Option Kernel :=
  (createTask kernelL1 k.sched.numTasks func stackSize k.heap).bind fun r =>
    match r.1 with
    | none => some { k with heap := r.2 }
    | some t => (schedAddTask t.tcb k.sched).map fun q => { k with
        heap := r.2
        sched := q.1
        tasks := if k.sched.numTasks ≥ maxTasks then k.tasks else k.tasks ++ [t] }

def Kernel.call (kernelL1 : Nat → BitVec 64) (k : Kernel) : Call → Option Kernel
  | .createTask func stackSize => k.create kernelL1 func stackSize
  | .schedule regs => (schedSchedule k.sched).map fun r => k.leave regs r.1 r.2
  | .yield regs => (schedYield k.sched).map fun r => k.leave regs r.1 r.2

/-- A machine that does not go on stays where it is. -/
def step (kernelL1 : Nat → BitVec 64) (k : Option Kernel) (c : Call) : Option Kernel :=
  k.bind fun k => k.call kernelL1 c

/-- After `sched_init`, on a heap the kernel may have used before. -/
def start (heap : System) : Option Kernel := some ⟨heap, schedInit boot, 0#64, [], [], []⟩

end AstralOS.Sched
