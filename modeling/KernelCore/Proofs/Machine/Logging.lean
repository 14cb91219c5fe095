import KernelCore.Proofs.Machine.Boot
import KernelCore.Proofs.Memory.Setup

/-!
# Logging

Two runs from machines that differ in the console only are compared step by step. Almost every
operation ends alike in both, since it writes to the console and never reads it; mapping the pages of
the heap is one of them. The one that reads the console shows an entry of the memory map: it works
out the end of the entry only if the console shows records of that importance, and stops the kernel
if that end passes the 64-bit numbers.
-/

namespace KernelCore

namespace Machine

/-- The machines differ in their consoles at most, which show the records of the levels `f` and
`g`. -/
structure Paired (f g : Option Level) (m k : Machine) : Prop where
  same : k = { m with console := k.console }
  left : m.console.filter = f
  right : k.console.filter = g

theorem paired_listening (m : Machine) (f g : Option Level) :
    Paired f g (m.listening f) (m.listening g) :=
  ⟨rfl, rfl, rfl⟩

end Machine

namespace Kernel

open Machine

/-- Two runs end alike: with the same result, or stopped for the same cause, and with machines that
differ in their consoles at most. -/
inductive Alike (f g : Option Level) {α : Type} :
    EStateM.Result Halt Machine α → EStateM.Result Halt Machine α → Prop
  | ok (a : α) {m k : Machine} (paired : Paired f g m k) : Alike f g (.ok a m) (.ok a k)
  | error (halt : Halt) {m k : Machine} (paired : Paired f g m k) :
      Alike f g (.error halt m) (.error halt k)

/-- Whatever the rest of the machine, an operation ends alike where consoles show the records of the
levels `f` and `g`. -/
def Agrees (f g : Option Level) {α : Type} (x : Kernel α) : Prop :=
  ∀ m k, Paired f g m k → Alike f g (x m) (x k)

/-- The end of a run with another console in the place of its own. -/
def heard {α : Type} (c : Console) : EStateM.Result Halt Machine α → EStateM.Result Halt Machine α
  | .ok a m => .ok a { m with console := c }
  | .error halt m => .error halt { m with console := c }

variable {f g : Option Level} {α β ε : Type} {x : Kernel α}

/-! ## Operations that do not read the console -/

/-- An operation that takes no notice of the console leaves it alone as well. -/
theorem agrees_of_silent (h : ∀ m c, x { m with console := c } = heard c (x m)) :
    Agrees f g x := by
  intro m k hpair
  have hkept : ∀ m' : Machine, m' = { m' with console := m.console } →
      Paired f g m' { m' with console := k.console } := by
    intro m' hm'
    exact ⟨rfl, by rw [hm', hpair.left], hpair.right⟩
  have hown : x m = heard m.console (x m) := h m m.console
  have hother : x k = heard k.console (x m) := by
    rw [← h m k.console, ← hpair.same]
  rw [hother]
  cases hx : x m with
  | ok a m' =>
    rw [hx] at hown
    exact .ok a (hkept m' (EStateM.Result.ok.inj hown).2)
  | error halt m' =>
    rw [hx] at hown
    exact .error halt (hkept m' (EStateM.Result.error.inj hown).2)

/-- What an operation reads of the machine apart from the console is the same in both runs. -/
theorem agrees_get_bind {γ : Type} (read : Machine → γ) {y : γ → Kernel β}
    (hread : ∀ m c, read { m with console := c } = read m) (hy : ∀ c, Agrees f g (y c)) :
    Agrees f g (get >>= fun m => y (read m)) := by
  intro m k hpair
  have hsame : read k = read m := by rw [hpair.same, hread]
  change Alike f g (y (read m) m) (y (read k) k)
  rw [hsame]
  exact hy (read m) m k hpair

theorem agrees_bind {y : α → Kernel β} (hx : Agrees f g x) (hy : ∀ a, Agrees f g (y a)) :
    Agrees f g (x >>= y) := by
  intro m k hpair
  have hfirst := hx m k hpair
  simp only [bind, EStateM.bind]
  generalize x m = r at hfirst
  generalize x k = s at hfirst
  cases hfirst with
  | ok a paired => exact hy a _ _ paired
  | error halt paired => exact .error halt paired

theorem agrees_lift_bind {y : α → ExceptT ε Kernel β} (hx : Agrees f g x)
    (hy : ∀ a, Agrees f g (y a).run) : Agrees f g (liftM x >>= y : ExceptT ε Kernel β).run := by
  intro m k hpair
  have hfirst := hx m k hpair
  cases hm : x m with
  | ok a m' =>
    rw [hm] at hfirst
    cases hk : x k with
    | ok b k' =>
      rw [hk] at hfirst
      cases hfirst with
      | ok a paired =>
        rw [ExceptT.run, lift_bind_ok hm, lift_bind_ok hk]
        exact hy a _ _ paired
    | error halt k' => rw [hk] at hfirst; cases hfirst
  | error halt m' =>
    rw [hm] at hfirst
    cases hk : x k with
    | ok b k' => rw [hk] at hfirst; cases hfirst
    | error halt' k' =>
      rw [hk] at hfirst
      cases hfirst with
      | error halt paired =>
        rw [ExceptT.run, lift_bind_error hm, lift_bind_error hk]
        exact .error halt paired

theorem agrees_pure (a : α) : Agrees f g (pure a : Kernel α) :=
  agrees_of_silent fun _ _ => rfl

theorem agrees_bind_run {z : ExceptT ε Kernel α} {y : α → ExceptT ε Kernel β}
    (hz : Agrees f g z.run) (hy : ∀ a, Agrees f g (y a).run) : Agrees f g (z >>= y).run := by
  refine agrees_bind hz fun r => ?_
  cases r with
  | ok a => exact hy a
  | error e => exact agrees_pure _

theorem agrees_checked (r : Except Panic α) : Agrees f g (checked r) := by
  apply agrees_of_silent
  intro m c
  cases r <;> rfl

theorem agrees_emit (events : List HardwareEvent) : Agrees f g (emit events) :=
  agrees_of_silent fun _ _ => rfl

theorem agrees_stop : Agrees f g (stop : Kernel α) :=
  agrees_of_silent fun _ _ => rfl

theorem agrees_directMapOf (offset : UInt64) : Agrees f g (directMapOf offset) := by
  apply agrees_of_silent
  intro m c
  obtain ⟨console, events, memory, ram, processor, efer, directMap, frames, mapper, scheduler⟩ := m
  cases directMap <;> rfl

theorem agrees_enableNoExecute : Agrees f g enableNoExecute :=
  agrees_of_silent fun _ _ => rfl

theorem agrees_buildFrames (pool : FramePool) (map : DirectMap) :
    Agrees f g (buildFrames pool map) := by
  apply agrees_of_silent
  intro m c
  simp only [buildFrames]
  rcases ResidentAllocator.placed pool.frames pool.bitmap map m.ram m.memory with
    halt | (e | ⟨r, memory⟩) <;> rfl

theorem agrees_onScheduler (change : Scheduler → Except SchedulerError (α × Scheduler)) :
    Agrees f g (onScheduler change) := by
  apply agrees_of_silent
  intro m c
  simp only [onScheduler]
  rcases change m.scheduler with e | ⟨a, scheduler⟩ <;> rfl

/-! ## Operations that write to the console -/

theorem agrees_modify_console {write : Console → Console}
    (h : ∀ c, (write c).filter = c.filter) :
    Agrees f g (modify fun m => { m with console := write m.console } : Kernel Unit) := by
  intro m k hpair
  refine .ok () ⟨?_, ?_, ?_⟩
  · rw [hpair.same]
  · rw [← hpair.left, h]
  · rw [← hpair.right, h]

theorem agrees_log (level : Level) (text : String) : Agrees f g (log level text) :=
  agrees_modify_console fun c => c.filter_log ⟨level, text⟩

theorem agrees_record (r : Record) : Agrees f g (record r) :=
  agrees_log r.level r.text

theorem agrees_giveUp (reason : String) : Agrees f g (giveUp reason : Kernel α) :=
  agrees_bind (agrees_log _ _) fun _ => agrees_stop

theorem agrees_require_bind {reason : String} {o : Option α} {y : α → Kernel β}
    (hy : ∀ a, o = some a → Agrees f g (y a)) : Agrees f g (require reason o >>= y) := by
  cases o with
  | none => exact agrees_giveUp reason
  | some a => exact hy a rfl

theorem agrees_usedEntries_bind {map : List LoaderEntry} {y : List MapEntry → Kernel β}
    (hy : Agrees f g (y ((map.take maxEntries).map (·.toMapEntry)))) :
    Agrees f g (usedEntries map >>= y) := by
  rw [usedEntries]
  split
  · rw [bind_assoc]
    exact agrees_bind (agrees_log _ _) fun _ => hy
  · exact hy

theorem agrees_keepDescriptor
    (r : Except Panic (Except SchedulerError (ProcessDescriptor × Scheduler))) :
    Agrees f g (keepDescriptor r) := by
  refine agrees_bind (agrees_checked r) fun made => ?_
  cases made with
  | ok made => exact agrees_bind (agrees_of_silent fun _ _ => rfl) fun _ => agrees_pure _
  | error e =>
    simp only
    split
    · exact agrees_get_bind (fun m => m.scheduler.exhaustionRecord) (fun _ _ => rfl)
        fun text => agrees_bind (agrees_record text) fun _ => agrees_pure _
    · exact agrees_pure _

theorem agrees_enlist (p : ProcessDescriptor) : Agrees f g (Kernel.enlist p) :=
  agrees_bind (agrees_onScheduler _) fun r =>
    agrees_bind (agrees_record (Scheduler.enlistRecord p r)) fun _ => agrees_pure r

theorem agrees_spawn {make : Kernel (Except SchedulerError ProcessDescriptor)}
    (hmake : Agrees f g make) : Agrees f g (spawn make) := by
  refine agrees_bind hmake fun made => ?_
  cases made with
  | error e => exact agrees_pure _
  | ok p => exact agrees_enlist p

theorem agrees_adoptBoot (memory : Bool) : Agrees f g (adoptBoot memory) :=
  agrees_get_bind (fun m => m.scheduler.adopt memory) (fun _ _ => rfl) agrees_keepDescriptor

theorem agrees_setUpMemory (entries : List MapEntry) (offset : UInt64) :
    Agrees f g (setUpMemory entries offset).run := by
  refine agrees_lift_bind (agrees_checked _) fun totals => ?_
  refine agrees_lift_bind (agrees_checked _) fun choice => ?_
  cases choice with
  | error e => exact agrees_pure _
  | ok pool =>
    refine agrees_lift_bind (agrees_directMapOf offset) fun map => ?_
    refine agrees_lift_bind (agrees_buildFrames pool map) fun built => ?_
    cases built with
    | error e => exact agrees_pure _
    | ok r =>
      refine agrees_lift_bind (agrees_log _ _) fun _ => ?_
      refine agrees_lift_bind (x := modify _) (agrees_of_silent fun _ _ => rfl) fun _ => ?_
      exact agrees_lift_bind agrees_enableNoExecute fun _ => agrees_pure _

/-! ## Tables and the heap -/

theorem agrees_onFrames (y : EStateM Panic FrameAllocator α) : Agrees f g (onFrames y) := by
  apply agrees_of_silent
  intro m c
  obtain ⟨console, events, memory, ram, processor, efer, directMap, frames, mapper, scheduler⟩ := m
  cases frames with
  | none => rfl
  | some r =>
    simp only [onFrames]
    cases y (r.load memory) <;> rfl

theorem agrees_allocateFrame : Agrees f g allocateFrame := by
  refine agrees_bind (agrees_onFrames _) fun taken => ?_
  cases taken <;> exact agrees_pure _

theorem agrees_look {q : Machine → Paging.Lookup α}
    (hq : ∀ m c, q { m with console := c } = q m) : Agrees f g (Paging.look q).run := by
  apply agrees_of_silent
  intro m c
  simp only [ExceptT.run, Paging.look, hq]
  cases q m <;> rfl

/-- Where a table is written, and what is written there, does not depend on the console. -/
theorem agrees_store (t : Frame) (level : LinkLevel) (start length : ℕ)
    (store : ℕ → Memory → Memory) :
    Agrees f g (Paging.change (fun m : Machine =>
      match m.tableAddress? t with
      | .error halt => .error halt
      | .ok none => .ok none
      | .ok (some a) =>
        if m.ram.covers (a + start) length then .ok (some { m with memory := store a m.memory })
        else .error .fault) level).run := by
  apply agrees_of_silent
  intro m c
  have haddress : tableAddress? { m with console := c } t = tableAddress? m t := rfl
  simp only [ExceptT.run, Paging.change, haddress]
  rcases tableAddress? m t with halt | (_ | a)
  · rfl
  · rfl
  · cases hcovers : m.ram.covers (a + start) length <;>
      simp only [hcovers, if_true, Bool.false_eq_true, if_false, heard]

theorem agrees_clear (t : Frame) (level : LinkLevel) :
    Agrees f g (Paging.change (TableMemory.clear (σ := Machine) · t) level).run :=
  agrees_store t level 0 4096 fun a memory => memory.clear a 4096

theorem agrees_write (t : Frame) (i : TableIndex) (e : Entry) (level : LinkLevel) :
    Agrees f g (Paging.change (TableMemory.write (σ := Machine) · t i e) level).run :=
  agrees_store t level (8 * i.val) 8 fun a memory => memory.setWord (a + 8 * i.val) e.bits

theorem agrees_followOrMake (v : VirtAddr) (t : Frame) (level : LinkLevel) :
    Agrees f g (Paging.followOrMake (σ := Machine) v t level).run := by
  refine agrees_bind_run (agrees_look fun _ _ => rfl) fun e => ?_
  split
  · exact agrees_look fun _ _ => rfl
  · refine agrees_lift_bind agrees_allocateFrame fun taken => ?_
    cases taken with
    | none => exact agrees_pure _
    | some t' =>
      refine agrees_bind_run (agrees_clear t' level) fun _ => ?_
      exact agrees_bind_run (agrees_write t _ _ level) fun _ => agrees_pure _

theorem agrees_map (v : VirtAddr) (p : PhysAddr) (attributes : UInt64) :
    Agrees f g (Paging.map (σ := Machine) v p attributes).run := by
  rw [Paging.map]
  split
  · exact agrees_pure _
  · refine agrees_bind_run (agrees_look fun _ _ => rfl) fun pml4 => ?_
    refine agrees_bind_run (agrees_followOrMake v pml4 .pml4) fun pdpt => ?_
    refine agrees_bind_run (agrees_followOrMake v pdpt .pdpt) fun pd => ?_
    refine agrees_bind_run (agrees_followOrMake v pd .pd) fun pt => ?_
    refine agrees_bind_run (agrees_look fun _ _ => rfl) fun e => ?_
    split
    · exact agrees_pure _
    · refine agrees_bind_run (agrees_write pt _ _ .pd) fun _ => ?_
      exact agrees_of_silent fun _ _ => rfl

theorem agrees_walk {w : Paging.Walk Machine α} (hw : Agrees f g w.run) :
    Agrees f g (walk w).run := by
  refine agrees_lift_bind hw fun r => ?_
  cases r with
  | ok a => exact agrees_pure _
  | error e =>
    simp only
    cases e.record? with
    | none => exact agrees_pure _
    | some r => exact agrees_lift_bind (agrees_record r) fun _ => agrees_pure _

theorem agrees_mapPage (v : VirtAddr) (p : PhysAddr) (attributes : UInt64) :
    Agrees f g (mapPage v p attributes).run := by
  refine agrees_get_bind (fun m => m.mapper.isSome && m.frames.isSome)
    (y := fun ready => (if ready then walk (Paging.map v p attributes) else throw .notReady).run)
    (fun _ _ => rfl) fun ready => ?_
  split
  · exact agrees_walk (agrees_map v p attributes)
  · exact agrees_pure _

theorem agrees_mapPages (n i : ℕ) : Agrees f g (Heap.mapPages n i).run := by
  induction n generalizing i with
  | zero => exact agrees_pure _
  | succ n ih =>
    refine agrees_lift_bind agrees_allocateFrame fun taken => ?_
    cases taken with
    | none => exact agrees_pure _
    | some t => exact agrees_bind_run (agrees_mapPage _ _ _) fun _ => ih (i + 1)

theorem agrees_backHeap : Agrees f g backHeap.run := by
  refine agrees_bind_run (agrees_mapPages _ _) fun _ => ?_
  exact agrees_bind (agrees_log _ _) fun _ => agrees_pure _

theorem agrees_setUpMemoryAndHeap (heap : Bool) (entries : List MapEntry) (offset : UInt64) :
    Agrees f g (setUpMemoryAndHeap heap entries offset).run := by
  refine agrees_bind_run (agrees_setUpMemory entries offset) fun summary => ?_
  cases heap with
  | false => exact agrees_pure _
  | true => exact agrees_bind_run agrees_backHeap fun _ => agrees_pure _

/-! ## Entries of the memory map -/

theorem paired_of_said {m m' k k' : Machine} (h : Paired f g m k) (hm : Said m m')
    (hk : Said k k') : Paired f g m' k' := by
  obtain ⟨c, hc, rfl⟩ := hm
  obtain ⟨d, hd, rfl⟩ := hk
  exact ⟨by rw [h.same], hc.trans h.left, hd.trans h.right⟩

/-- The end of an entry is worked out on both sides or on none, or else it can be. -/
theorem agrees_showEntry {e : MapEntry} (h : shows f .debug = shows g .debug ∨ e.Fits) :
    Agrees f g (showEntry e) := by
  intro m k hpair
  by_cases hfits : e.Fits
  · obtain ⟨m', hm, hsaid⟩ := showEntry_of_fits (m := m) hfits
    obtain ⟨k', hk, hsaid'⟩ := showEntry_of_fits (m := k) hfits
    rw [hm, hk]
    exact .ok () (paired_of_said hpair hsaid hsaid')
  · have hsame := h.resolve_right hfits
    cases hshown : shows f .debug with
    | false =>
      rw [showEntry_of_hidden (by rw [hpair.left, hshown]),
        showEntry_of_hidden (by rw [hpair.right, ← hsame, hshown])]
      exact .ok () hpair
    | true =>
      rw [showEntry_of_not_fits (by rw [hpair.left, hshown]) hfits,
        showEntry_of_not_fits (by rw [hpair.right, ← hsame, hshown]) hfits]
      exact .error _ hpair

theorem agrees_showEntries {entries : List MapEntry}
    (h : shows f .debug = shows g .debug ∨ ∀ e ∈ entries, e.Fits) :
    Agrees f g (showEntries entries) := by
  induction entries with
  | nil => exact agrees_pure ()
  | cons e rest ih =>
    refine agrees_bind (agrees_showEntry ?_) fun _ => ih ?_
    · exact h.imp_right fun hall => hall e List.mem_cons_self
    · exact h.imp_right fun hall e he => hall e (List.mem_cons_of_mem _ he)

/-! ## Boot -/

theorem agrees_bringUp (heap : Bool) (entries : List MapEntry) (offset : UInt64) :
    Agrees f g (bringUp heap entries offset) := by
  refine agrees_bind (agrees_setUpMemoryAndHeap heap entries offset) fun outcome => ?_
  cases outcome with
  | error e => exact agrees_giveUp _
  | ok summary =>
    refine agrees_bind (agrees_log _ _) fun _ => ?_
    refine agrees_bind (agrees_spawn (agrees_adoptBoot true)) fun registered => ?_
    cases registered with
    | error e => exact agrees_giveUp _
    | ok pid => exact agrees_pure pid

/-- A logger that is installed puts the level of the build in the place of whatever was there. -/
theorem paired_startLogger (o : BootOptions) {m k : Machine} (h : Paired f g m k) : ∃ m' k',
    startLogger o.logger m = .ok () m' ∧ startLogger o.logger k = .ok () k' ∧
      Paired (o.level f) (o.level g) m' k' := by
  obtain ⟨logger, heap⟩ := o
  cases logger with
  | true =>
    obtain ⟨m', hm, hsaid⟩ := said_printLine "Logger already installed" m
    obtain ⟨k', hk, hsaid'⟩ := said_printLine "Logger already installed" k
    exact ⟨m', k', hm, hk, paired_of_said h hsaid hsaid'⟩
  | false => exact ⟨_, _, rfl, rfl, by rw [h.same]; rfl, rfl, rfl⟩

/-- Boot comes to the entries only if no answer is missing. -/
theorem alike_bootWith {o : BootOptions} {h : Handoff} {m k : Machine} (hpair : Paired f g m k)
    (hentries : shows (o.level f) .debug = shows (o.level g) .debug ∨
      ∀ offset, h.Complete offset → ∀ e ∈ h.entries, e.Fits) :
    Alike (o.level f) (o.level g) (bootWith o h m) (bootWith o h k) := by
  obtain ⟨m', k', hm, hk, hpair'⟩ := paired_startLogger o hpair
  rw [bootWith, bind_eq_ok hm, bind_eq_ok hk]
  refine (?_ : Agrees (o.level f) (o.level g) _) m' k' hpair'
  split
  · rw [giveUp_bind]
    exact agrees_giveUp _
  rename_i hrevision
  refine agrees_bind (agrees_emit _) fun _ => ?_
  refine agrees_require_bind fun framebuffer hframebuffer => ?_
  refine agrees_bind (agrees_log _ _) fun _ => ?_
  refine agrees_require_bind fun map hmap => ?_
  refine agrees_require_bind fun offset hoffset => ?_
  have hcomplete : h.Complete offset :=
    ⟨by simpa using hrevision, by rw [hframebuffer]; rfl, by rw [hmap]; rfl, hoffset⟩
  have hreached := hentries.imp_right fun hall => hall offset hcomplete
  rw [Handoff.entries, hmap, Option.getD_some] at hreached
  refine agrees_usedEntries_bind ?_
  exact agrees_bind (agrees_showEntries hreached) fun _ => agrees_bringUp _ _ offset

/-- The log level has a say in how boot ends through one thing only: an entry of the memory map that
ends past the 64-bit numbers. Whatever the hand-off, whether there is a logger already, and whether
the heap is backed: boot ends alike on consoles of which both show debug records or neither does, and
on any two if an answer is missing or no entry that is used ends so. If one does and nothing is
missing, boot stops on a console that shows debug records, with the descriptor tables loaded and
nothing else done; on one that does not it goes on to the memory manager. What a console shows is
what it shows once there is a logger: if boot installs its own, that is the same for all. -/
theorem boot_ends_alike (o : BootOptions) (h : Handoff) (m : Machine) (f g : Option Level) :
    (shows (o.level f) .debug = shows (o.level g) .debug ∨
        (∀ offset, h.Complete offset → ∀ e ∈ h.entries, e.Fits) →
      Alike (o.level f) (o.level g) (bootWith o h (m.listening f))
        (bootWith o h (m.listening g))) ∧
    ∀ offset, h.Complete offset → (∃ e ∈ h.entries, ¬ e.Fits) →
      (shows (o.level f) .debug = true → ∃ m',
        Said (guardedByTables (m.listening (o.level f))) m' ∧
        bootWith o h (m.listening f) = .error (.panic .addOverflow) m') ∧
      (shows (o.level f) .debug = false → ∃ m',
        Said (guardedByTables (m.listening (o.level f))) m' ∧
        bootWith o h (m.listening f) = bringUp o.heap h.entries offset m') := by
  refine ⟨alike_bootWith (paired_listening m f g), ?_⟩
  rintro offset hcomplete ⟨e, he, hover⟩
  obtain ⟨m₁, hsaid, hboot⟩ := bootWith_of_complete o hcomplete (m.listening f)
  have hfilter : m₁.console.filter = o.level f := hsaid.filter_eq
  rw [hboot]
  refine ⟨fun hshown => ?_, fun hhidden => ?_⟩
  · obtain ⟨m', hstop, hsaid'⟩ :=
      showEntries_of_not_fits (m := m₁) he hover (by rw [hfilter, hshown])
    exact ⟨m', hsaid.trans hsaid', bind_eq_error hstop⟩
  · have hskip := showEntries_of_hidden h.entries (m := m₁) (by rw [hfilter, hhidden])
    exact ⟨m₁, hsaid, bind_eq_ok hskip⟩

/-- A hand-off with two usable entries, and a reserved one at the end of the 64-bit numbers. -/
def brimming : Handoff where
  revision := some 0
  framebuffers := some [⟨1280, 720, 0xffff8000fd000000⟩]
  memoryMap := some [⟨0x10000, 0x20000, 0⟩, ⟨0x1000, 0x1000, 0⟩, ⟨0xffffffffffff0000, 0x10000, 1⟩]
  directMap := some 0xffff800000000000

/-- A machine with memory behind the direct map, and nothing set up. -/
def spacious : Machine := .off none .zeroed ⟨0xffff800000000000, 0x40000⟩ 0x1000

/-- A console that shows debug records makes the difference between a kernel that is up and one that
stopped before it had any memory. -/
theorem boot_ends_alike_unless_brimming :
    Alike (some .info) none (boot brimming (spacious.listening (some .info)))
      (boot brimming (spacious.listening none)) ∧
    (∃ m', boot brimming (spacious.listening (some .debug)) = .error (.panic .addOverflow) m' ∧
      m'.frames = none) ∧
    ∃ m', boot brimming (spacious.listening (some .info)) = .ok 1 m' ∧ m'.frames.isSome = true := by
  have hcomplete : brimming.Complete 0xffff800000000000 := ⟨rfl, rfl, rfl, rfl⟩
  have hover : ∃ e ∈ brimming.entries, ¬ e.Fits :=
    ⟨⟨0xffffffffffff0000, 0x10000, .reserved⟩, by decide, by decide⟩
  obtain ⟨halike, -⟩ := boot_ends_alike .tested brimming spacious (some .info) none
  obtain ⟨-, hdebug⟩ := boot_ends_alike .tested brimming spacious (some .debug) none
  obtain ⟨m', hsaid, hstop⟩ := (hdebug _ hcomplete hover).1 rfl
  obtain ⟨c, -, rfl⟩ := hsaid
  exact ⟨halike (.inl rfl), ⟨_, hstop, rfl⟩, _, rfl, rfl⟩

end Kernel

end KernelCore
