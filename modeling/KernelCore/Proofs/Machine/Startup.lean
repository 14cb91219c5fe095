import KernelCore.Proofs.Machine.Boot
import KernelCore.Proofs.Machine.Stacks
import KernelCore.Proofs.Machine.Tasks

/-!
# Startup

After boot the workers are started one after the other, each on its stack, until a worker finds the
pool too small. What holds between two workers is an invariant of the number of those that got a
stack; a worker that gets none leaves it as it was.
-/

namespace KernelCore

open Kernel

-- comparing memories is not to come down to writing bytes
seal Memory.setWord

/-! ## New processes -/

/-- While there are pids left, there is a descriptor for a new process. -/
theorem Scheduler.newDescriptor_of_lt {s : Scheduler} (hpid : s.nextPid + 1 < UInt32.size)
    (privilege : Ring) (heapBase heapSize : UInt64) (thread : ThreadState) : ∃ p,
      s.newDescriptor privilege heapBase heapSize thread true =
        .ok (.ok (p, { s with nextPid := s.nextPid + 1 })) ∧
      p.pid = s.nextPid ∧ p.thread = thread := by
  have hnext : addWithin UInt32.size s.nextPid 1 = .ok (s.nextPid + 1) :=
    addWithin_eq_ok_iff.mpr ⟨hpid, rfl⟩
  simp only [Scheduler.newDescriptor, hnext, if_true]
  exact ⟨_, rfl, rfl, rfl⟩

namespace Kernel

variable {k : Machine}

/-- A process on memory that is there is made, with its sentinel on the stack. -/
theorem newProcess_of_stackTop {c : ProcessPlan} {top : ℕ} (htop : c.stackTop? = some top)
    (hcovers : k.ram.covers (ProcessPlan.sentinelAddress top) 8 = true)
    (hpid : k.scheduler.nextPid + 1 < UInt32.size) : ∃ p,
      newProcess c true k = .ok (.ok p) { k with
        memory := k.memory.setWord (ProcessPlan.sentinelAddress top) 0
        scheduler := { k.scheduler with nextPid := k.scheduler.nextPid + 1 } } ∧
      p.pid = k.scheduler.nextPid ∧ p.thread = c.thread top := by
  obtain ⟨p, hmade, hp, hthread⟩ :=
    Scheduler.newDescriptor_of_lt hpid c.ring c.heapBase c.heapSize (c.thread top)
  refine ⟨p, ?_, hp, hthread⟩
  rw [newProcess, htop]
  simp only
  rw [bind_eq_ok (storeWord_eq_ok hcovers 0), bind_eq_ok (get_eq _), Scheduler.newProcess, hmade]
  rfl

theorem enlist_of_room {p : ProcessDescriptor} (hroom : k.scheduler.table.size < Scheduler.capacity)
    (hcurrent : k.scheduler.current = some 0) : ∃ console,
      Kernel.enlist p k = .ok (.ok p.pid) { k with
        console
        scheduler := { k.scheduler with
          table := k.scheduler.table.push (k.scheduler.enlisted p) } } := by
  have henlist : k.scheduler.enlist p = .ok (p.pid, { k.scheduler with
      table := k.scheduler.table.push (k.scheduler.enlisted p) }) := by
    rw [Scheduler.enlist, if_neg (by omega)]
    simp [Scheduler.enlisted, hcurrent]
  have hchange : onScheduler (·.enlist p) k = .ok (.ok p.pid) { k with
      scheduler := { k.scheduler with
        table := k.scheduler.table.push (k.scheduler.enlisted p) } } := by
    simp only [onScheduler, henlist]
  exact ⟨_, (bind_eq_ok hchange).trans rfl⟩

end Kernel

namespace Demo

open FrameAllocator Machine

variable {offset : UInt64} {pool : FramePool} {m k : Machine} {n : ℕ}

/-! ## Processes for the workers -/

/-- The worker `id`, ready to be entered on its stack. -/
structure IsWorker (offset : UInt64) (pool : Extent) (id : ℕ) (p : ProcessDescriptor) : Prop where
  pid : p.pid = id + 2
  ready : p.state = .ready
  entry : p.thread.registers.rip = workerEntry
  argument : p.thread.registers.rdi.toNat = id
  base : p.thread.stackBase.toNat = stackBase offset pool id
  top : p.thread.stackTop.toNat = stackTop offset pool id
  sentinel : p.thread.registers.rsp.toNat + 8 = stackTop offset pool id

/-- Addresses of the bytes that are written until `n` workers are started. -/
def touched (offset : UInt64) (pool : FramePool) (n : ℕ) : Set ℕ :=
  bitmapBytes offset pool ∪ {c | ∃ id < n, c ∈ sentinelBytes offset pool.frames id}

theorem bitmapBytes_subset : bitmapBytes offset pool ⊆ touched offset pool n :=
  Set.subset_union_left

theorem sentinelBytes_subset {id : ℕ} (hid : id < n) :
    sentinelBytes offset pool.frames id ⊆ touched offset pool n :=
  fun _ hc => .inr ⟨id, hid, hc⟩

theorem touched_subset_succ : touched offset pool n ⊆ touched offset pool (n + 1) := by
  refine Set.union_subset bitmapBytes_subset ?_
  rintro c ⟨id, hid, hc⟩
  exact sentinelBytes_subset (Nat.lt_succ_of_lt hid) hc

/-- The first `n` workers are in the table behind the boot process, and nothing else has happened
to the machine `m` that is to be seen in memory or in the allocator. -/
structure Staffed (m : Machine) (offset : UInt64) (pool : FramePool) (n : ℕ) (k : Machine) :
    Prop where
  ram : k.ram = m.ram
  directMap : k.directMap = some ⟨offset⟩
  allotted : Allotted k offset pool n
  size : k.scheduler.table.size = 1 + n
  nextPid : k.scheduler.nextPid = n + 2
  current : k.scheduler.current = some 0
  boot : ∃ p : ProcessDescriptor,
    k.scheduler.table[0]? = some p ∧ p.pid = 1 ∧ p.state = .running
  crew : ∀ id < n, ∃ p, k.scheduler.table[id + 1]? = some p ∧ IsWorker offset pool.frames id p
  written : Memory.AgreeOutside (touched offset pool n) m.memory k.memory
  sentinels : ∀ id < n, k.memory.word (stackTop offset pool.frames id - 8) = 0

theorem stackTop?_workerPlan {v : VirtAddr} {id : ℕ} {pool : Extent}
    (hv : v.val = stackBase offset pool id)
    (hend : stackBase offset pool id + stackSize < 0x10000000000000000) :
    (workerPlan id v).stackTop? = some (stackTop offset pool id) := by
  have hsize : (UInt64.ofNat stackSize).toNat = stackSize := rfl
  have hbounds := (stackTop_bounds offset pool id).1
  simp only [ProcessPlan.stackTop?, workerPlan, ProcessPlan.kernel, hv, hsize]
  exact if_pos ⟨hend, hbounds⟩

/-- What comes into the table for a worker. -/
theorem isWorker_enlisted {s : Scheduler} {p : ProcessDescriptor} {v : VirtAddr} {id : ℕ}
    {pool : Extent} (hcurrent : s.current = some 0) (hid : id < workers) (hpid : p.pid = id + 2)
    (hthread : p.thread = (workerPlan id v).thread (stackTop offset pool id))
    (hv : v.val = stackBase offset pool id)
    (hend : stackBase offset pool id + stackSize < 0x10000000000000000) :
    IsWorker offset pool id (s.enlisted p) := by
  obtain ⟨hlow, hhigh⟩ := stackTop_bounds offset pool id
  rw [workers] at hid
  refine ⟨hpid, ?_, ?_, ?_, ?_, ?_, ?_⟩
  · simp [Scheduler.enlisted, hcurrent]
  · simp only [Scheduler.enlisted, hthread]
    rfl
  · simp only [Scheduler.enlisted, hthread]
    change (UInt64.ofNat id).toNat = id
    rw [UInt64.toNat_ofNat', Nat.mod_eq_of_lt (by omega)]
  · simp only [Scheduler.enlisted, hthread]
    change (UInt64.ofNat v.val).toNat = _
    rw [UInt64.toNat_ofNat', hv, Nat.mod_eq_of_lt (by omega)]
  · simp only [Scheduler.enlisted, hthread]
    change (UInt64.ofNat (stackTop offset pool id)).toNat = _
    rw [UInt64.toNat_ofNat', Nat.mod_eq_of_lt (by omega)]
  · simp only [Scheduler.enlisted, hthread]
    change (UInt64.ofNat (stackTop offset pool id - 8)).toNat + 8 = _
    rw [UInt64.toNat_ofNat', Nat.mod_eq_of_lt (by omega)]
    omega

theorem workerStack_eq_ok {p : PhysAddr} {v : VirtAddr} {k' : Machine}
    (hgrant : allocateRun stackSize k = .ok (.ok p) k') (hmap : k'.directMap = some ⟨offset⟩)
    (hv : (⟨offset⟩ : DirectMap).toVirt p = .ok v) : workerStack k = .ok (some v) k' := by
  rw [workerStack, bind_eq_ok hgrant]
  simp only
  rw [directAddress, bind_eq_ok (get_eq k'), hmap]
  simp only [hv]
  rfl

/-! ## One worker after the other -/

/-- What is written to the bitmap leaves the sentinels of the workers alone. -/
theorem Staffed.word_eq_zero (h : Staffed m offset pool n k)
    (hapart : ∀ x ∈ pool.frames.bytes, offset.toNat + x ∉ bitmapBytes offset pool)
    {memory : Memory} (hagree : Memory.AgreeOutside (bitmapBytes offset pool) k.memory memory)
    {id : ℕ} (hid : id < n) : memory.word (stackTop offset pool.frames id - 8) = 0 := by
  have hroom := h.allotted.le
  have hbounds := (stackTop_bounds offset pool.frames id).1
  rw [hagree.word, h.sentinels id hid]
  intro c h₁ h₂
  exact sentinel_notMem_bitmap hapart (by omega) ⟨h₁, by omega⟩

/-- The machine with one more worker in the table, and its sentinel in memory. -/
theorem Staffed.add (h : Staffed m offset pool n k)
    (hapart : ∀ x ∈ pool.frames.bytes, offset.toNat + x ∉ bitmapBytes offset pool)
    (hroom : 4 * (n + 1) ≤ pool.frames.frameCount) {frames : Option ResidentAllocator}
    {memory : Memory} (hallotted : Allotted { k with frames, memory } offset pool (n + 1))
    (hagree : Memory.AgreeOutside (bitmapBytes offset pool) k.memory memory)
    {q : ProcessDescriptor} (hq : IsWorker offset pool.frames n q) (console : Console) :
    Staffed m offset pool (n + 1) { k with
      console, frames
      memory := memory.setWord (stackTop offset pool.frames n - 8) 0
      scheduler := { k.scheduler with
        nextPid := k.scheduler.nextPid + 1
        table := k.scheduler.table.push q } } := by
  have hbounds := stackTop_bounds offset pool.frames
  have hword : Memory.AgreeOutside (sentinelBytes offset pool.frames n) memory
      (memory.setWord (stackTop offset pool.frames n - 8) 0) := by
    have hafter := Memory.agreeOutside_setWord memory (stackTop offset pool.frames n - 8) 0
    rwa [Nat.sub_add_cancel (by have := hbounds n; omega)] at hafter
  refine ⟨h.ram, h.directMap, hallotted.congr rfl fun c hc => ?_, ?_, ?_, h.current, ?_, ?_, ?_, ?_⟩
  · exact hword c fun hs => sentinel_notMem_bitmap hapart hroom hs hc
  · simp only [Array.size_push, h.size]
    omega
  · simp only [h.nextPid]
  · obtain ⟨p, hp, hboot⟩ := h.boot
    have hsize := h.size
    exact ⟨p, by rw [Array.getElem?_push, if_neg (by omega), hp], hboot⟩
  · intro id hid
    have hsize := h.size
    by_cases hlast : id = n
    · subst hlast
      exact ⟨q, by rw [Array.getElem?_push, if_pos (by omega)], hq⟩
    · obtain ⟨p, hp, hworker⟩ := h.crew id (by omega)
      exact ⟨p, by rw [Array.getElem?_push, if_neg (by omega), hp], hworker⟩
  · have hbefore := h.written.mono touched_subset_succ
    have hbitmap := hagree.mono (bitmapBytes_subset (n := n + 1))
    exact (hbefore.trans hbitmap).trans (hword.mono (sentinelBytes_subset (Nat.lt_succ_self n)))
  · intro id hid
    by_cases hlast : id = n
    · subst hlast
      exact Memory.word_setWord _ _ _
    · have hearlier : stackTop offset pool.frames id ≤ stackBase offset pool.frames n := by
        have htop := (hbounds id).2
        simp only [stackBase, stackSize] at htop ⊢
        omega
      have hbase := (hbounds n).1
      have hfirst := (hbounds id).1
      rw [Memory.word_setWord_of_disjoint _ _ (by omega)]
      exact h.word_eq_zero hapart hagree (by omega)

/-- A worker that there is room for is started. -/
theorem Staffed.start (h : Staffed m offset pool n k) (hpool : m.Exposes offset pool.frames)
    (hapart : ∀ x ∈ pool.frames.bytes, offset.toNat + x ∉ bitmapBytes offset pool)
    (hn : n < workers) (hroom : 4 * (n + 1) ≤ pool.frames.frameCount) :
    ∃ k', startWorker n k = .ok () k' ∧ Staffed m offset pool (n + 1) k' := by
  -- the stack is the next frames of the pool, where the direct map shows them
  obtain ⟨p, frames, memory, hgrant, hp, hallotted, hagree⟩ := h.allotted.grant hroom
  have hend := stack_le offset hroom
  have hlimit := hpool.stop_lt
  have hwhole := Extent.frame_subset_bytes pool.frames (i := 4 * n) (by omega)
  rw [UInt64.size] at hlimit
  have hin : p.val ∈ pool.frames.bytes := by
    rw [hp, stackSize]
    exact hwhole ⟨by omega, by omega⟩
  obtain ⟨v, hv, hval⟩ := hpool.toVirt hin
  have hbase : v.val = stackBase offset pool.frames n := by
    rw [hval, hp, stackBase, Nat.add_assoc]
  have hstack := workerStack_eq_ok hgrant h.directMap hv
  -- the sentinel lies in the pool, so it is written to memory that is there
  have htop := stackTop?_workerPlan hbase (by omega)
  obtain ⟨x, hx, hsentinel⟩ := exists_sentinel offset hroom
  have hcovers : k.ram.covers (stackTop offset pool.frames n - 8) 8 = true := by
    rw [hx, h.ram]
    exact hpool.covers (by decide) hsentinel
  have hpid : k.scheduler.nextPid + 1 < UInt32.size := by
    rw [h.nextPid]
    rw [workers] at hn
    change (n + 2 + 1 : ℕ) < 4294967296
    omega
  have hcapacity : k.scheduler.table.size < Scheduler.capacity := by
    rw [h.size, Scheduler.capacity]
    rw [workers] at hn
    omega
  obtain ⟨q, hmake, hqpid, hthread⟩ :=
    newProcess_of_stackTop (k := { k with frames, memory }) htop hcovers hpid
  obtain ⟨console, henlist⟩ := enlist_of_room (p := q) (k := { k with
      frames
      memory := memory.setWord (stackTop offset pool.frames n - 8) 0
      scheduler := { k.scheduler with nextPid := k.scheduler.nextPid + 1 } })
    hcapacity h.current
  have hspawn : spawn (newProcess (workerPlan n v) true) { k with frames, memory } = _ :=
    (bind_eq_ok hmake).trans henlist
  have hworker := isWorker_enlisted h.current hn (hqpid.trans h.nextPid) hthread hbase (by omega)
  refine ⟨_, (bind_eq_ok hstack).trans ((bind_eq_ok hspawn).trans rfl), ?_⟩
  exact h.add hapart hroom hallotted hagree hworker _

/-- A worker that there is no room for changes nothing that counts. -/
theorem Staffed.skip (h : Staffed m offset pool n k)
    (hapart : ∀ x ∈ pool.frames.bytes, offset.toNat + x ∉ bitmapBytes offset pool)
    (hfull : pool.frames.frameCount < 4 * (n + 1)) (id : ℕ) :
    ∃ k', startWorker id k = .ok () k' ∧ Staffed m offset pool n k' := by
  obtain ⟨frames, memory, hrefuse, hallotted, hagree⟩ := h.allotted.refuse hfull
  have hstack : workerStack k = .ok none { k with frames, memory } := bind_eq_ok hrefuse
  refine ⟨_, (bind_eq_ok hstack).trans rfl, ?_⟩
  exact ⟨h.ram, h.directMap, hallotted.congr rfl fun _ _ => rfl, h.size, h.nextPid, h.current,
    h.boot, h.crew, h.written.trans (hagree.mono bitmapBytes_subset),
    fun id hid => h.word_eq_zero hapart hagree hid⟩

/-- As many workers are started as there is room for. -/
theorem Staffed.startAll (hpool : m.Exposes offset pool.frames)
    (hapart : ∀ x ∈ pool.frames.bytes, offset.toNat + x ∉ bitmapBytes offset pool)
    {count id : ℕ} (hcount : id + count ≤ workers)
    (h : Staffed m offset pool (min id (pool.frames.frameCount / 4)) k) :
    ∃ k', startWorkers count id k = .ok () k' ∧
      Staffed m offset pool (min (id + count) (pool.frames.frameCount / 4)) k' := by
  induction count generalizing id k with
  | zero => exact ⟨k, rfl, h⟩
  | succ count ih =>
    have hstep : ∃ k', startWorker id k = .ok () k' ∧
        Staffed m offset pool (min (id + 1) (pool.frames.frameCount / 4)) k' := by
      by_cases hroom : id < pool.frames.frameCount / 4
      · rw [Nat.min_eq_left (by omega)] at h
        rw [Nat.min_eq_left (by omega)]
        exact h.start hpool hapart (by omega) (by omega)
      · rw [Nat.min_eq_right (by omega)] at h
        rw [Nat.min_eq_right (by omega)]
        exact h.skip hapart (by omega) id
    obtain ⟨k₁, hstart, h₁⟩ := hstep
    have hlater : id + 1 + count ≤ workers := by omega
    obtain ⟨k', hrest, h'⟩ := ih hlater h₁
    rw [show id + 1 + count = id + (count + 1) by omega] at h'
    exact ⟨k', by rw [startWorkers, bind_eq_ok hstart, hrest], h'⟩

/-! ## From boot on -/

/-- What the workers are started from. -/
theorem staffed_of_setUpMemory {entries : List MapEntry} {totals : MemoryTotals} {m₀ : Machine}
    (hfresh : Fresh m) (hinit : setUpMemory entries offset m = .ok (.ok totals) m₀)
    (hchosen : FramePool.ofEntries entries = .ok (.ok pool))
    (hframes : m.Exposes offset pool.frames) (hbitmap : m.Exposes offset pool.bitmap)
    (console : Console) (events : List HardwareEvent) :
    Staffed m offset pool 0 { m₀ with console, events, scheduler := adopted } ∧
      Disjoint pool.frames.bytes pool.bitmap.bytes ∧
      bitmapSize pool.frames.frameCount ≤ pool.bitmap.length.toNat := by
  obtain ⟨-, pool', r, memory, hchosen', hplaced, rfl⟩ := setUpMemory_eq_ok hfresh.directMap hinit
  obtain rfl : pool' = pool := Except.ok.inj (Except.ok.inj (hchosen'.symm.trans hchosen))
  obtain ⟨hallotted, hagree, hapart, hfits⟩ := allotted_of_placed
    (k := { memoryUp m offset pool' r memory with console, events, scheduler := adopted })
    hframes hbitmap hplaced rfl
  have hboot : ∃ p : ProcessDescriptor,
      adopted.table[0]? = some p ∧ p.pid = 1 ∧ p.state = .running := ⟨_, rfl, rfl, rfl⟩
  have hwritten := hagree.mono (bitmapBytes_subset (n := 0))
  exact ⟨⟨rfl, rfl, hallotted, rfl, rfl, rfl, hboot, by simp, hwritten, by simp⟩, hapart, hfits⟩

/-! ## The idle loop -/

/-- Addresses of the bytes of a worker's stack. -/
def stack (p : ProcessDescriptor) : Set ℕ :=
  Set.Ico p.thread.stackBase.toNat (p.thread.stackBase.toNat + stackSize)

/-- Addresses of the bytes that a process finds at its stack pointer when it is entered. -/
def sentinel (p : ProcessDescriptor) : Set ℕ :=
  Set.Ico p.thread.registers.rsp.toNat (p.thread.registers.rsp.toNat + 8)

/-- The kernel is up on the machine `k`, with the boot process in slot 0 of the table and `w`
workers behind it. Of the memory of `m` it has written the bitmap and the sentinels only. -/
structure Up (m : Machine) (offset : UInt64) (pool : FramePool) (w : ℕ) (k : Machine) : Prop where
  interrupts : k.processor.interruptsEnabled = true
  size : k.scheduler.table.size = 1 + w
  current : k.scheduler.current = some 0
  boot : ∃ p : ProcessDescriptor,
    k.scheduler.table[0]? = some p ∧ p.pid = 1 ∧ p.state = .running
  workers : ∀ (i : ℕ) (p : ProcessDescriptor), k.scheduler.table[i + 1]? = some p →
    p.pid = i + 2 ∧ p.state = .ready ∧ p.thread.registers.rdi.toNat = i ∧
      p.thread.registers.rip = workerEntry
  stacks_disjoint : ∀ i j p q, k.scheduler.table[i + 1]? = some p →
    k.scheduler.table[j + 1]? = some q → i ≠ j → Disjoint (stack p) (stack q)
  stack_subset : ∀ i p, k.scheduler.table[i + 1]? = some p → stack p ⊆
    Set.Ico (offset.toNat + pool.frames.base.val)
      (offset.toNat + (pool.frames.base.val + pool.frames.length.toNat))
  stack_disjoint : ∀ i p, k.scheduler.table[i + 1]? = some p → Disjoint (stack p)
    (Set.Ico (offset.toNat + pool.bitmap.base.val)
      (offset.toNat + (pool.bitmap.base.val + pool.bitmap.length.toNat)))
  sentinel_at_top : ∀ (i : ℕ) (p : ProcessDescriptor), k.scheduler.table[i + 1]? = some p →
    p.thread.stackTop.toNat = (p.thread.stackBase.toNat + stackSize) / 16 * 16 ∧
      p.thread.registers.rsp.toNat + 8 = p.thread.stackTop.toNat ∧
      k.memory.word p.thread.registers.rsp.toNat = 0
  written : ∀ c, k.memory.byte c ≠ m.memory.byte c → c ∈ bitmapBytes offset pool ∨
    ∃ i p, k.scheduler.table[i + 1]? = some p ∧ c ∈ sentinel p
  used : ∃ r, k.frames = some r ∧ r.region = pool.frames ∧ (r.load k.memory).used = 4 * w

theorem IsWorker.stack_eq {pool : Extent} {id : ℕ} {p : ProcessDescriptor}
    (h : IsWorker offset pool id p) :
    stack p = Set.Ico (stackBase offset pool id) (stackBase offset pool id + stackSize) := by
  rw [stack, h.base]

/-- A process behind the boot process is one of the workers. -/
theorem Staffed.isWorker (h : Staffed m offset pool n k) {i : ℕ} {p : ProcessDescriptor}
    (hp : k.scheduler.table[i + 1]? = some p) :
    4 * (i + 1) ≤ pool.frames.frameCount ∧ i < n ∧ IsWorker offset pool.frames i p := by
  have hslot := (Array.getElem?_eq_some_iff.mp hp).1
  have hsize := h.size
  have hroom := h.allotted.le
  obtain ⟨q, hq, hworker⟩ := h.crew i (by omega)
  obtain rfl : q = p := Option.some.inj (hq.symm.trans hp)
  exact ⟨by omega, by omega, hworker⟩

theorem Staffed.quiet (h : Staffed m offset pool n k) (console : Console)
    (events : List HardwareEvent) (processor : Registers) :
    Staffed m offset pool n { k with console, events, processor } :=
  ⟨h.ram, h.directMap, h.allotted.congr rfl fun _ _ => rfl, h.size, h.nextPid, h.current, h.boot,
    h.crew, h.written, h.sentinels⟩

/-- With the workers there and interrupts on, the kernel is up. -/
theorem Staffed.up (h : Staffed m offset pool n k)
    (hapart : Disjoint pool.frames.bytes pool.bitmap.bytes)
    (hinterrupts : k.processor.interruptsEnabled = true) : Up m offset pool n k := by
  refine ⟨hinterrupts, h.size, h.current, h.boot, ?_, ?_, ?_, ?_, ?_, ?_, ?_⟩
  · intro i p hp
    obtain ⟨-, -, hworker⟩ := h.isWorker hp
    exact ⟨hworker.pid, hworker.ready, hworker.argument, hworker.entry⟩
  · intro i j p q hp hq hij
    obtain ⟨-, -, hworker⟩ := h.isWorker hp
    obtain ⟨-, -, hother⟩ := h.isWorker hq
    rw [hworker.stack_eq, hother.stack_eq, Set.Ico_disjoint_Ico]
    simp only [stackBase, stackSize]
    omega
  · intro i p hp
    obtain ⟨hroom, -, hworker⟩ := h.isWorker hp
    have hend := stack_le offset hroom
    rw [hworker.stack_eq]
    refine Set.Ico_subset_Ico ?_ hend
    rw [stackBase]
    omega
  · intro i p hp
    obtain ⟨hroom, -, hworker⟩ := h.isWorker hp
    have hend := stack_le offset hroom
    rw [Extent.bytes, Extent.bytes, Set.Ico_disjoint_Ico] at hapart
    rw [hworker.stack_eq, Set.Ico_disjoint_Ico]
    simp only [stackBase, stackSize] at hend ⊢
    omega
  · intro i p hp
    obtain ⟨-, hin, hworker⟩ := h.isWorker hp
    have hsentinel := hworker.sentinel
    refine ⟨by rw [hworker.top, hworker.base, stackTop], by rw [hsentinel, hworker.top], ?_⟩
    rw [← h.sentinels i hin]
    congr 1
    omega
  · intro c hc
    by_cases hbitmap : c ∈ bitmapBytes offset pool
    · exact .inl hbitmap
    · have hin : ∃ id < n, c ∈ sentinelBytes offset pool.frames id := by
        by_contra hout
        exact hc (h.written c fun hmem => hmem.elim hbitmap hout)
      obtain ⟨id, hid, hsentinel⟩ := hin
      obtain ⟨p, hp, hworker⟩ := h.crew id hid
      have htop := hworker.sentinel
      rw [sentinelBytes, Set.mem_Ico] at hsentinel
      exact .inr ⟨id, p, hp, by omega, by omega⟩
  · obtain ⟨r, a, hlends, -, hfilled⟩ := h.allotted
    have hfree := hfilled.free
    refine ⟨r, hlends.frames, ?_, ?_⟩
    · rw [← hfilled.region, ← hlends.load]
      rfl
    · rw [hlends.load, used]
      omega

theorem interruptsEnabled_withInterrupts_true (f : Registers) :
    (f.withInterrupts true).interruptsEnabled = true := by
  have habsorb : (f.rflags ||| Registers.interruptFlag) &&& Registers.interruptFlag =
      Registers.interruptFlag := by
    apply UInt64.toBitVec_inj.mp
    ext i
    simp only [UInt64.toBitVec_and, UInt64.toBitVec_or, BitVec.getElem_and, BitVec.getElem_or,
      Bool.and_eq_right_iff_imp, Bool.or_eq_true]
    exact .inr
  simp only [Registers.interruptsEnabled, Registers.withInterrupts, if_true, habsorb]
  decide

/-- A fresh kernel comes up. Take any hand-off with nothing missing, on which memory can be set up,
and whose entries all end within the 64-bit numbers, with the pool and the region of its bitmap in
memory below the offset of the direct map. Then the kernel gets to its idle loop, with as many of
the workers behind the boot process as the pool has room for, each of them ready at its entry on a
stack of its own. -/
theorem kernel_comes_up {h : Handoff} {totals : MemoryTotals} {m₀ : Machine} (hfresh : Fresh m)
    (hcomplete : h.Complete offset) (hfits : ∀ e ∈ h.entries, e.Fits)
    (hinit : setUpMemory h.entries offset m = .ok (.ok totals) m₀)
    (hchosen : FramePool.ofEntries h.entries = .ok (.ok pool))
    (hframes : m.Exposes offset pool.frames) (hbitmap : m.Exposes offset pool.bitmap) :
    ∃ k, (∀ n, Demo.run h n m = idle n ⟨.idle, []⟩ k) ∧
      Up m offset pool (min workers (pool.frames.frameCount / 4)) k := by
  obtain ⟨c, events, hboot⟩ := boot_of_fresh hcomplete hfits hfresh hinit
  obtain ⟨m₁, hlog, hsaid⟩ := said_log .info ("Boot context is process " ++ toString 1)
    { m₀ with console := c, events, scheduler := adopted }
  obtain ⟨console, -, rfl⟩ := hsaid
  obtain ⟨hstaffed, hapart, hbitmapFits⟩ :=
    staffed_of_setUpMemory hfresh hinit hchosen hframes hbitmap console events
  have hclear : ∀ x ∈ pool.frames.bytes, offset.toNat + x ∉ bitmapBytes offset pool := by
    intro x hx hin
    rw [bitmapBytes, Set.mem_Ico] at hin
    exact Set.disjoint_left.mp hapart hx ⟨by omega, by omega⟩
  have hall : 0 + workers ≤ workers := (Nat.zero_add workers).le
  obtain ⟨k₁, hworkers, hcrew⟩ :=
    Staffed.startAll hframes hclear hall (by rwa [Nat.zero_min])
  rw [Nat.zero_add] at hcrew
  obtain ⟨d, later, htimer⟩ : ∃ d later,
      startKernelTimer k₁ = .ok () { k₁ with console := d, events := later } := ⟨_, _, rfl⟩
  let k : Machine :=
    { k₁ with console := d, events := later, processor := k₁.processor.withInterrupts true }
  have hstart : start h m = .ok () k := by
    rw [start, bind_eq_ok hboot, bind_eq_ok hlog, bind_eq_ok hworkers, bind_eq_ok htimer]
    rfl
  have hdone := hcrew.quiet d later (k₁.processor.withInterrupts true)
  refine ⟨k, fun n => ?_, hdone.up hapart (interruptsEnabled_withInterrupts_true _)⟩
  rw [Demo.run, bind_eq_ok hstart]

/-- A pool of nine frames, with its bitmap in a frame of its own. -/
def modest : Handoff where
  revision := some 0
  framebuffers := some [⟨1280, 720, 0xffff8000fd000000⟩]
  memoryMap := some [⟨0x10000, 0x9000, 0⟩, ⟨0x2000, 0x1000, 0⟩]
  directMap := some 0xffff800000000000

/-- A machine with memory behind the direct map, and nothing set up. -/
def bare : Machine := .off none .zeroed ⟨0xffff800000000000, 0x20000⟩ 0x1000

theorem exposes_bare {r : Extent} (h : r.base.val + r.length.toNat ≤ 0x20000) :
    bare.Exposes 0xffff800000000000 r := by
  have hoffset : (0xffff800000000000 : UInt64).toNat = 0xffff800000000000 := rfl
  constructor
  · omega
  · intro x hx
    rw [Extent.bytes, Set.mem_Ico] at hx
    refine ⟨⟨x, by omega⟩, ⟨0xffff800000000000 + x, .inr (by omega)⟩, rfl, rfl, ?_⟩
    rw [Span.covers_iff]
    simp only [bare, Machine.off]
    omega
  · rw [UInt64.size]
    omega

/-- Two workers fit into a pool of nine frames, and the third gets no stack. -/
theorem kernel_comes_up_with_two_workers : ∃ totals m₀,
    setUpMemory modest.entries 0xffff800000000000 bare = .ok (.ok totals) m₀ ∧
    ∃ k, Demo.run modest 0 bare = .error .sleep k ∧ k.scheduler.table.size = 3 ∧
      ∀ p q, k.scheduler.table[1]? = some p → k.scheduler.table[2]? = some q →
        Disjoint (stack p) (stack q) := by
  obtain ⟨totals, m₀, hinit⟩ : ∃ totals m₀,
      setUpMemory modest.entries 0xffff800000000000 bare = .ok (.ok totals) m₀ := ⟨_, _, rfl⟩
  have hchosen : FramePool.ofEntries modest.entries =
      .ok (.ok ⟨⟨⟨0x10000, by decide⟩, 0x9000⟩, ⟨⟨0x2000, by decide⟩, 0x1000⟩⟩) := rfl
  have hcomplete : modest.Complete 0xffff800000000000 := ⟨rfl, rfl, rfl, rfl⟩
  obtain ⟨k, hrun, hup⟩ := kernel_comes_up ⟨rfl, rfl⟩ hcomplete (by decide) hinit hchosen
    (exposes_bare (by decide)) (exposes_bare (by decide))
  exact ⟨totals, m₀, hinit, k, hrun 0, hup.size,
    fun p q hp hq => hup.stacks_disjoint 0 1 p q hp hq (by decide)⟩

end Demo

end KernelCore
