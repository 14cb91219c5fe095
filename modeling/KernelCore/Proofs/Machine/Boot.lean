import KernelCore.Machine.Boot
import KernelCore.Proofs.Machine.Basic
import KernelCore.Proofs.Memory.Setup

/-!
# Boot

With every answer of the loader there, boot comes to the entries of the memory map and shows them.
That is where it stops if an entry that is shown ends past the 64-bit numbers; otherwise it goes on
to the memory manager.
-/

namespace KernelCore

/-- The end of an entry is a 64-bit number. -/
def MapEntry.Fits (e : MapEntry) : Prop := e.base.toNat + e.length.toNat < UInt64.size

instance (e : MapEntry) : Decidable e.Fits := inferInstanceAs (Decidable (_ < _))

namespace Handoff

/-- The entries of the memory map that are used. -/
def entries (h : Handoff) : List MapEntry :=
  ((h.memoryMap.getD []).take Kernel.maxEntries).map (·.toMapEntry)

/-- Nothing is missing that the kernel asks for before it sets up memory. -/
structure Complete (h : Handoff) (offset : UInt64) : Prop where
  revision : h.revision = some 0
  framebuffer : (h.framebuffers.bind List.head?).isSome = true
  memoryMap : h.memoryMap.isSome = true
  directMap : h.directMap = some offset

end Handoff

/-- The level in force once there is a logger, where it was `least` before. -/
def BootOptions.level (o : BootOptions) (least : Option Level) : Option Level :=
  if o.logger then least else some .built

namespace Kernel

variable {m m' : Machine}

/-- Whether consoles with the filter `least` show the records of a level. -/
def shows (least : Option Level) (level : Level) : Bool := (⟨least, ""⟩ : Console).enabled level

theorem enabled_eq_shows (c : Console) (level : Level) :
    c.enabled level = shows c.filter level :=
  rfl

/-- The machines differ in what their consoles have sent at most. -/
def Said (m m' : Machine) : Prop :=
  ∃ c : Console, c.filter = m.console.filter ∧ m' = { m with console := c }

theorem Said.refl (m : Machine) : Said m m := ⟨m.console, rfl, rfl⟩

theorem Said.filter_eq (h : Said m m') : m'.console.filter = m.console.filter := by
  obtain ⟨c, hc, rfl⟩ := h
  exact hc

theorem Said.trans {m₁ : Machine} (h : Said m m₁) (h' : Said m₁ m') : Said m m' := by
  obtain ⟨c, hc, rfl⟩ := h
  obtain ⟨d, hd, rfl⟩ := h'
  exact ⟨d, hd.trans hc, rfl⟩

theorem said_log (level : Level) (text : String) (m : Machine) :
    ∃ m', log level text m = .ok () m' ∧ Said m m' :=
  ⟨_, rfl, _, m.console.filter_log ⟨level, text⟩, rfl⟩

theorem said_printLine (text : String) (m : Machine) :
    ∃ m', printLine text m = .ok () m' ∧ Said m m' :=
  ⟨_, rfl, _, m.console.filter_print (text ++ "\n"), rfl⟩

theorem said_usedEntries (map : List LoaderEntry) (m : Machine) :
    ∃ m', usedEntries map m = .ok ((map.take maxEntries).map (·.toMapEntry)) m' ∧ Said m m' := by
  rw [usedEntries]
  split
  · obtain ⟨m', hlog, hsaid⟩ := said_log .warn ("Memory map has " ++ toString map.length ++
      " entries, using " ++ toString maxEntries) m
    refine ⟨m', ?_, hsaid⟩
    rw [bind_eq_ok hlog]
    rfl
  · exact ⟨m, rfl, .refl m⟩

theorem require_some {α : Type} (reason : String) (a : α) (m : Machine) :
    require reason (some a) m = .ok a m :=
  rfl

theorem giveUp_bind {α β : Type} (reason : String) (f : α → Kernel β) :
    giveUp reason >>= f = giveUp reason :=
  rfl

/-! ## The entries of the memory map -/

theorem showEntry_of_hidden {e : MapEntry} (h : shows m.console.filter .debug = false) :
    showEntry e m = .ok () m := by
  rw [showEntry, bind_eq_ok (get_eq m), enabled_eq_shows, h]
  rfl

theorem showEntry_of_fits {e : MapEntry} (h : e.Fits) :
    ∃ m', showEntry e m = .ok () m' ∧ Said m m' := by
  cases hshown : shows m.console.filter .debug with
  | false => exact ⟨m, showEntry_of_hidden hshown, .refl m⟩
  | true =>
    have hstop := addWithin_eq_ok_iff.mpr ⟨h, rfl⟩
    rw [showEntry, bind_eq_ok (get_eq m), enabled_eq_shows, hshown, if_pos rfl, hstop,
      bind_eq_ok (checked_ok _ m)]
    exact said_log _ _ m

theorem showEntry_of_not_fits {e : MapEntry} (hshown : shows m.console.filter .debug = true)
    (h : ¬ e.Fits) : showEntry e m = .error (.panic .addOverflow) m := by
  have hstop : addWithin UInt64.size e.base.toNat e.length.toNat = .error .addOverflow := if_neg h
  rw [showEntry, bind_eq_ok (get_eq m), enabled_eq_shows, hshown, if_pos rfl, hstop]
  exact bind_eq_error (checked_error _ m)

theorem showEntries_of_hidden (entries : List MapEntry)
    (h : shows m.console.filter .debug = false) : showEntries entries m = .ok () m := by
  induction entries with
  | nil => rfl
  | cons e rest ih => rw [showEntries, bind_eq_ok (showEntry_of_hidden h), ih]

/-- Entries that end within the 64-bit numbers are shown, and nothing comes of it. -/
theorem showEntries_of_fits {entries : List MapEntry} (h : ∀ e ∈ entries, e.Fits) (m : Machine) :
    ∃ m', showEntries entries m = .ok () m' ∧ Said m m' := by
  induction entries generalizing m with
  | nil => exact ⟨m, rfl, .refl m⟩
  | cons e rest ih =>
    obtain ⟨m₁, hfirst, hsaid⟩ := showEntry_of_fits (m := m) (h e List.mem_cons_self)
    obtain ⟨m', hrest, hsaid'⟩ := ih (fun e he => h e (List.mem_cons_of_mem _ he)) m₁
    exact ⟨m', by rw [showEntries, bind_eq_ok hfirst, hrest], hsaid.trans hsaid'⟩

/-- The first entry that is shown and ends past the 64-bit numbers stops the kernel. -/
theorem showEntries_of_not_fits {entries : List MapEntry} {e : MapEntry} (he : e ∈ entries)
    (h : ¬ e.Fits) (hshown : shows m.console.filter .debug = true) :
    ∃ m', showEntries entries m = .error (.panic .addOverflow) m' ∧ Said m m' := by
  induction entries generalizing m with
  | nil => contradiction
  | cons first rest ih =>
    rw [showEntries]
    by_cases hfirst : first.Fits
    · have hlater : e ∈ rest := by
        rcases List.mem_cons.mp he with rfl | hmem
        · contradiction
        · exact hmem
      obtain ⟨m₁, hshow, hsaid⟩ := showEntry_of_fits (m := m) hfirst
      obtain ⟨m', hstop, hsaid'⟩ := ih hlater (m := m₁) (by rw [hsaid.filter_eq, hshown])
      exact ⟨m', by rw [bind_eq_ok hshow, hstop], hsaid.trans hsaid'⟩
    · exact ⟨m, bind_eq_error (showEntry_of_not_fits hshown hfirst), .refl m⟩

/-! ## Up to the entries and from there -/

/-- The rest of boot, once it has shown the entries of the memory map. -/
def bringUp (heap : Bool) (entries : List MapEntry) (offset : UInt64) : Kernel Pid := do
  match ← (setUpMemoryAndHeap heap entries offset).run with
  | .error e => giveUp e.message
  | .ok summary =>
    showSummary summary
    match ← spawn (adoptBoot true) with
    | .error e => giveUp e.message
    | .ok pid => pure pid

/-- The machine with its descriptor tables loaded. -/
def guardedByTables (m : Machine) : Machine :=
  { m with events := (Hardware.loadSegments ++ Hardware.loadGates).reverse ++ m.events }

theorem Said.guardedByTables (h : Said m m') : Said (guardedByTables m) (guardedByTables m') := by
  obtain ⟨c, hc, rfl⟩ := h
  exact ⟨c, hc, rfl⟩

theorem startLogger_eq_ok (o : BootOptions) (m : Machine) : ∃ m₁,
    startLogger o.logger m = .ok () m₁ ∧ Said (m.listening (o.level m.console.filter)) m₁ := by
  obtain ⟨logger, heap⟩ := o
  cases logger with
  | true => exact said_printLine "Logger already installed" m
  | false => exact ⟨_, rfl, .refl _⟩

/-- A hand-off with nothing missing brings boot to the entries of its memory map. -/
theorem bootWith_of_complete (o : BootOptions) {h : Handoff} {offset : UInt64}
    (hcomplete : h.Complete offset) (m : Machine) : ∃ m₁,
      Said (guardedByTables (m.listening (o.level m.console.filter))) m₁ ∧
      bootWith o h m = (do showEntries h.entries; bringUp o.heap h.entries offset) m₁ := by
  obtain ⟨hrevision, hframebuffer, hmap, hoffset⟩ := hcomplete
  obtain ⟨framebuffer, hframebuffer⟩ := Option.isSome_iff_exists.mp hframebuffer
  obtain ⟨map, hmap⟩ := Option.isSome_iff_exists.mp hmap
  simp only [bootWith, hrevision, hframebuffer, hmap, hoffset, Handoff.entries, Option.getD_some]
  obtain ⟨m₁, hlogger, hsaid₁⟩ := startLogger_eq_ok o m
  have htables : loadDescriptorTables m₁ = .ok () (Kernel.guardedByTables m₁) := rfl
  rw [bind_eq_ok hlogger, if_neg (by decide), bind_eq_ok htables, bind_eq_ok (require_some _ _ _)]
  obtain ⟨m₂, hscreen, hsaid₂⟩ := said_log .info ("Framebuffer " ++
    toString framebuffer.width.toNat ++ "x" ++ toString framebuffer.height.toNat ++ " at " ++
    Text.hex framebuffer.address.toNat) (Kernel.guardedByTables m₁)
  obtain ⟨m₃, hentries, hsaid₃⟩ := said_usedEntries map m₂
  rw [bind_eq_ok hscreen, bind_eq_ok (require_some _ _ _), bind_eq_ok (require_some _ _ _),
    bind_eq_ok hentries]
  exact ⟨m₃, (hsaid₁.guardedByTables.trans hsaid₂).trans hsaid₃, rfl⟩

/-! ## From nothing set up to the boot process -/

/-- The machine once memory is set up. -/
def memoryUp (m : Machine) (offset : UInt64) (pool : FramePool) (r : ResidentAllocator)
    (memory : Memory) : Machine :=
  { m with
    console := m.console.log ⟨.info, "Frame pool at " ++ Text.hex pool.frames.base.val ++ ", " ++
      toString r.region.frameCount ++ " frames, bitmap at " ++ Text.hex pool.bitmap.base.val⟩
    events := .writeModelRegister eferNumber (m.efer ||| noExecuteEnable) :: m.events
    memory := memory
    efer := m.efer ||| noExecuteEnable
    directMap := some ⟨offset⟩
    frames := some r
    mapper := some ⟨offset⟩ }

variable {entries : List MapEntry} {offset : UInt64} {totals : MemoryTotals}

theorem directMapOf_of_none (h : m.directMap = none) :
    directMapOf offset m = .ok ⟨offset⟩ { m with directMap := some ⟨offset⟩ } := by
  rw [directMapOf, bind_eq_ok (get_eq m), h]
  rfl

/-- Before there is a direct map, the one at the offset is used. What is left to go wrong is then
the allocator's. -/
theorem setUpMemory_of_chosen {pool : FramePool} (hm : m.directMap = none)
    (htotals : MemoryTotals.ofEntries entries = .ok totals)
    (hchosen : FramePool.ofEntries entries = .ok (.ok pool)) :
    setUpMemory entries offset m =
      match ResidentAllocator.placed pool.frames pool.bitmap ⟨offset⟩ m.ram m.memory with
      | .error halt => .error halt { m with directMap := some ⟨offset⟩ }
      | .ok (.error e) => .ok (.error (.frame e)) { m with directMap := some ⟨offset⟩ }
      | .ok (.ok (r, memory)) => .ok (.ok totals) (memoryUp m offset pool r memory) := by
  let m₁ : Machine := { m with directMap := some ⟨offset⟩ }
  rw [setUpMemory, htotals, lift_bind_ok (checked_ok totals m), hchosen, ExceptT.run,
    lift_bind_ok (checked_ok _ m)]
  simp only [lift_bind_ok (directMapOf_of_none hm)]
  rcases hplaced : ResidentAllocator.placed pool.frames pool.bitmap ⟨offset⟩ m.ram m.memory with
    halt | (e | ⟨r, memory⟩)
  · have hbuild : buildFrames pool ⟨offset⟩ m₁ = .error halt m₁ := by
      simp only [buildFrames, m₁, hplaced]
    exact lift_bind_error hbuild
  · have hbuild : buildFrames pool ⟨offset⟩ m₁ = .ok (.error e) m₁ := by
      simp only [buildFrames, m₁, hplaced]
    exact lift_bind_ok hbuild
  · have hbuild : buildFrames pool ⟨offset⟩ m₁ = .ok (.ok r) { m₁ with memory } := by
      simp only [buildFrames, m₁, hplaced]
    exact lift_bind_ok hbuild

theorem setUpMemory_eq_ok (hm : m.directMap = none)
    (h : setUpMemory entries offset m = .ok (.ok totals) m') :
    MemoryTotals.ofEntries entries = .ok totals ∧ ∃ pool r memory,
      FramePool.ofEntries entries = .ok (.ok pool) ∧
      ResidentAllocator.placed pool.frames pool.bitmap ⟨offset⟩ m.ram m.memory =
        .ok (.ok (r, memory)) ∧ m' = memoryUp m offset pool r memory := by
  have hcases := setUpMemory_cases entries offset m
  rw [h] at hcases
  cases htotals : MemoryTotals.ofEntries entries with
  | error stop =>
    rw [setUpMemory, htotals, lift_bind_error (checked_error stop m)] at h
    contradiction
  | ok sums =>
    cases hcases with
    | done chosen directMap mapper placed frames ram processor =>
      rw [setUpMemory_of_chosen hm htotals chosen] at h
      split at h
      · contradiction
      · obtain ⟨hsums, -⟩ := EStateM.Result.ok.inj h
        contradiction
      · rename_i r memory hplaced
        obtain ⟨hsums, rfl⟩ := EStateM.Result.ok.inj h
        exact ⟨congrArg Except.ok (Except.ok.inj hsums), _, r, memory, chosen, hplaced, rfl⟩

/-- The boot process in a table of its own. -/
def adopted : Scheduler where
  table := #[⟨1, 0, .running, Ring.innermost, 0, 0, 0,
    { ThreadState.blank with kernel := true, timeSlice := Scheduler.empty.timeSlice }⟩]
  current := some 0
  nextPid := 2
  ticks := 0
  quantum := 10

theorem spawn_adoptBoot (h : m.scheduler = .empty) : ∃ c,
    spawn (adoptBoot true) m = .ok (.ok 1) { m with console := c, scheduler := adopted } := by
  obtain ⟨console, events, memory, ram, processor, efer, directMap, frames, mapper, scheduler⟩ := m
  obtain rfl : scheduler = .empty := h
  exact ⟨_, rfl⟩

/-- Nothing is there that boot sets up. -/
structure Fresh (m : Machine) : Prop where
  directMap : m.directMap = none
  scheduler : m.scheduler = .empty

theorem setUpMemoryAndHeap_false (entries : List MapEntry) (offset : UInt64) :
    setUpMemoryAndHeap false entries offset = setUpMemory entries offset := by
  simp [setUpMemoryAndHeap]

theorem bringUp_eq_ok {m₀ : Machine}
    (hinit : (setUpMemory entries offset).run m = .ok (.ok totals) m₀)
    (hscheduler : m₀.scheduler = .empty) : ∃ c,
      bringUp false entries offset m = .ok 1 { m₀ with console := c, scheduler := adopted } := by
  obtain ⟨m₁, hsummary, hsaid⟩ := said_log .info ("Memory: " ++ toString (totals.total / 1024) ++
    " KiB total, " ++ toString (totals.usable / 1024) ++ " KiB usable, " ++
    toString (totals.reserved / 1024) ++ " KiB reserved") m₀
  obtain ⟨d, -, rfl⟩ := hsaid
  obtain ⟨c, hspawn⟩ := spawn_adoptBoot (m := { m₀ with console := d }) hscheduler
  refine ⟨c, ?_⟩
  rw [bringUp, setUpMemoryAndHeap_false, bind_eq_ok hinit]
  simp only
  rw [showSummary, bind_eq_ok hsummary, bind_eq_ok hspawn]
  rfl

/-- Where memory can be set up, a kernel that has nothing set up boots, with every entry that it may
have to show ending within the 64-bit numbers. -/
theorem boot_of_fresh {h : Handoff} {m₀ : Machine} (hcomplete : h.Complete offset)
    (hfits : ∀ e ∈ h.entries, e.Fits) (hfresh : Fresh m)
    (hinit : setUpMemory h.entries offset m = .ok (.ok totals) m₀) : ∃ console events,
      boot h m = .ok 1 { m₀ with console, events, scheduler := adopted } := by
  obtain ⟨htotals, pool, r, memory, hchosen, hplaced, rfl⟩ :=
    setUpMemory_eq_ok hfresh.directMap hinit
  obtain ⟨m₁, hsaid₁, hboot⟩ := bootWith_of_complete .tested hcomplete m
  obtain ⟨m₂, hshow, hsaid₂⟩ := showEntries_of_fits hfits m₁
  obtain ⟨c, -, rfl⟩ := hsaid₁.trans hsaid₂
  have hsetup : setUpMemory h.entries offset { guardedByTables m with console := c } = _ :=
    setUpMemory_of_chosen hfresh.directMap htotals hchosen
  simp only [guardedByTables, hplaced] at hsetup
  obtain ⟨console, hup⟩ := bringUp_eq_ok hsetup hfresh.scheduler
  exact ⟨console, _, hboot.trans ((bind_eq_ok hshow).trans hup)⟩

end Kernel

end KernelCore
