import KernelCore.Proofs.Scheduler.LifeCycle

/-!
# Processor time

A tick is charged to whoever has the processor as it begins, before the switch is decided, and
nothing else is charged. So the account of a process counts the ticks that began while the processor
was its own; and as there is a current process whenever there is one at all, the accounts together
count the ticks that began with a process in the table.
-/

namespace KernelCore

namespace Scheduler

variable {s t : Scheduler} {p q : ProcessDescriptor} {i : ℕ} {w w' : Session}
  {operation : Operation} {switch : Option Switch} {operations : List Operation}
  {since : List Scheduler}

/-! ## Charges -/

/-- What a tick that begins with `current` adds to the account of slot `i`. -/
def share (current : Option ℕ) (i : ℕ) : ℕ := if current = some i then tickPeriod else 0

theorem timeUsed_charged (current : Option ℕ) (i : ℕ) (p : ProcessDescriptor) :
    (charged current i p).thread.timeUsed = p.thread.timeUsed + share current i := by
  unfold charged share
  split <;> rfl

theorem timeUsed_switched (previous : Option ℕ) (next i : ℕ) (p : ProcessDescriptor) :
    (switched previous next i p).thread.timeUsed = p.thread.timeUsed := by
  unfold switched
  split
  · rfl
  · split <;> rfl

theorem timeUsed_of_dispatch? {sw : Switch} (h : s.dispatch? = some (sw, t))
    (hq : t.table[i]? = some q) :
    ∃ p, s.table[i]? = some p ∧ q.thread.timeUsed = p.thread.timeUsed := by
  obtain ⟨-, -, -, -, -, -, -, -, -, hupdates⟩ := dispatch?_eq_some h
  obtain ⟨p, hp, rfl⟩ := hupdates.eq_some hq
  exact ⟨p, hp, timeUsed_switched _ _ _ _⟩

/-- A tick is charged to the process that was current as it began, whether there is a switch or
not. -/
theorem timeUsed_of_tick (h : s.tick = .ok (switch, t)) (hq : t.table[i]? = some q) :
    ∃ p, s.table[i]? = some p ∧
      q.thread.timeUsed = p.thread.timeUsed + share s.current i := by
  obtain ⟨u, hcharge, hcases⟩ := tick_eq_ok h
  obtain ⟨-, -, -, hupdates⟩ := charge_eq_ok hcharge
  obtain ⟨r, hr, hsame⟩ : ∃ r, u.table[i]? = some r ∧ q.thread.timeUsed = r.thread.timeUsed := by
    rcases hcases with ⟨sw, -, -, hdispatch⟩ | ⟨-, rfl, -⟩
    · exact timeUsed_of_dispatch? hdispatch hq
    · exact ⟨q, hq, rfl⟩
  obtain ⟨p, hp, rfl⟩ := hupdates.eq_some hr
  exact ⟨p, hp, hsame.trans (timeUsed_charged s.current i p)⟩

/-- Without a tick, a registration or a reset all accounts are what they were. -/
theorem Step.timeUsed (hstep : Step s t operation switch) (htick : operation ≠ .tick)
    (henlist : ∀ k, operation ≠ .enlist k) (hreset : operation ≠ .reset)
    (hq : t.table[i]? = some q) :
    ∃ p, s.table[i]? = some p ∧ q.thread.timeUsed = p.thread.timeUsed := by
  cases hstep with
  | quiet table _ _ => exact ⟨q, table ▸ hq, rfl⟩
  | enlisted => exact absurd rfl (henlist _)
  | ticked => exact absurd rfl htick
  | dispatched switched => exact timeUsed_of_dispatch? switched hq
  | moved set =>
    obtain ⟨j, -, -, -, -, -, rfl⟩ := setState_eq_ok set
    obtain ⟨p, hp, rfl⟩ := (updates_modify s j _).eq_some hq
    refine ⟨p, hp, ?_⟩
    split <;> rfl
  | retimed set =>
    obtain ⟨-, -, -, hupdates⟩ := setQuantum_eq_ok set
    obtain ⟨p, hp, rfl⟩ := hupdates.eq_some hq
    exact ⟨p, hp, rfl⟩
  | reset => exact absurd rfl hreset

/-- Every account in the table is as it was before, but for a tick, or it is the one that a process
brings along when it is registered. -/
theorem Operation.timeUsed (h : operation.perform w = .ok (switch, w'))
    (hreset : operation ≠ .reset) (hq : w'.scheduler.table[i]? = some q) :
    (∃ p, w.scheduler.table[i]? = some p ∧ q.thread.timeUsed =
      p.thread.timeUsed + if operation = .tick then share w.scheduler.current i else 0) ∨
    i = w.scheduler.table.size ∧ (∃ k, operation = .enlist k) ∧
      ∃ p ∈ w.pending, SameProcess p q ∧ q.thread.timeUsed = p.thread.timeUsed := by
  by_cases htick : operation = .tick
  · subst htick
    obtain ⟨⟨switch', t⟩, ht, hw⟩ := map_eq_ok h
    obtain ⟨rfl, rfl⟩ := Prod.mk.inj hw
    exact .inl (timeUsed_of_tick ht hq)
  by_cases henlist : ∃ k, operation = .enlist k
  · obtain ⟨k, rfl⟩ := henlist
    cases Operation.effect h with
    | failed => exact .inl ⟨q, hq, rfl⟩
    | made makes => exact makes.elim
    | dropped => exact .inl ⟨q, hq, rfl⟩
    | @enlisted _ p _ _ pending enlist =>
      obtain ⟨-, -, rfl⟩ := enlist_eq_ok enlist
      rw [Array.getElem?_push] at hq
      split at hq
      · rename_i hi
        obtain rfl := Option.some.inj hq
        exact .inr ⟨hi, ⟨k, rfl⟩, p, List.mem_of_getElem? pending,
          ⟨_, p.thread.timeUsed, _, rfl⟩, rfl⟩
      · exact .inl ⟨q, hq, rfl⟩
  · obtain ⟨p, hp, hsame⟩ :=
      (operation.step h).timeUsed htick (not_exists.mp henlist) hreset hq
    rw [if_neg htick]
    exact .inl ⟨p, hp, hsame⟩

/-- A process that is made has used no time. -/
theorem Operation.timeUsed_pending (h : operation.perform w = .ok (switch, w'))
    (hp : p ∈ w'.pending) : p ∈ w.pending ∨ p.thread.timeUsed = 0 := by
  cases operation.effect h with
  | made _ _ _ timeUsed =>
    rcases List.mem_append.mp hp with hold | hnew
    · exact .inl hold
    · rw [List.mem_singleton.mp hnew]
      exact .inr timeUsed
  | dropped => exact .inl (List.mem_of_mem_eraseIdx hp)
  | enlisted => exact .inl (List.mem_of_mem_eraseIdx hp)
  | _ => exact .inl hp

/-! ## Counting ticks -/

/-- Notes the scheduler at the beginning of each tick since the last reset. -/
def noteTick (since : List Scheduler) (w : Session) (operation : Operation) (_ : Session) :
    List Scheduler :=
  match operation with
  | .tick => w.scheduler :: since
  | .reset => []
  | _ => since

/-- The schedulers as the ticks since the last reset began, the latest first. -/
def tickStarts (operations : List Operation) : List Scheduler :=
  chronicle noteTick [] operations .start

/-- Ticks that began while the process in slot `i` was current. -/
def ticksOf (since : List Scheduler) (i : ℕ) : ℕ := since.countP fun s => s.current = some i

/-- Ticks that began with a process in the table. -/
def busyTicks (since : List Scheduler) : ℕ := since.countP fun s => s.table.size ≠ 0

theorem ticksOf_cons (s : Scheduler) (since : List Scheduler) (i : ℕ) :
    tickPeriod * ticksOf (s :: since) i = tickPeriod * ticksOf since i + share s.current i := by
  unfold ticksOf share
  rw [List.countP_cons]
  by_cases h : s.current = some i
  · simp only [h, decide_true, if_true, Nat.mul_add, Nat.mul_one]
  · simp only [h, decide_false, Bool.false_eq_true, if_false, Nat.add_zero]

/-- Each tick that began with a process in the table began with one of them current. -/
theorem sum_ticksOf {n : ℕ} (hcoherent : ∀ s ∈ since, Coherent s)
    (hsize : ∀ s ∈ since, s.table.size ≤ n) :
    ∑ i ∈ Finset.range n, ticksOf since i = busyTicks since := by
  induction since with
  | nil => simp [ticksOf, busyTicks]
  | cons s since ih =>
    have hrest := ih (fun u hu => hcoherent u (List.mem_cons_of_mem _ hu))
      fun u hu => hsize u (List.mem_cons_of_mem _ hu)
    have hs := hcoherent s List.mem_cons_self
    have hn := hsize s List.mem_cons_self
    unfold ticksOf busyTicks at hrest ⊢
    simp only [List.countP_cons, Finset.sum_add_distrib, hrest]
    congr 1
    cases hcurrent : s.current with
    | none =>
      have hempty := hs.current_none.mp hcurrent
      simp [hempty]
    | some c =>
      have hc := hs.current_lt hcurrent
      have hne : s.table.size ≠ 0 := by omega
      have hmem : c < n := by omega
      simp [hne, hmem]

/-! ## Sessions -/

/-- The accounts of a session agree with the ticks since the last reset. -/
structure Charged (since : List Scheduler) (w : Session) : Prop where
  coherent : Coherent w.scheduler
  table : ∀ i p, w.scheduler.table[i]? = some p →
    p.thread.timeUsed = tickPeriod * ticksOf since i
  pending : ∀ p ∈ w.pending, p.thread.timeUsed = 0
  starts : ∀ s ∈ since, Coherent s ∧ Keeps s w.scheduler

theorem charged_start : Charged [] .start := by
  refine ⟨coherent_empty 10, ?_, nofun, nofun⟩
  intro i p hp
  simp [Session.start, empty] at hp

theorem Keeps.size_le (h : Keeps s t) : s.table.size ≤ t.table.size := by
  by_contra hlt
  obtain ⟨q, hq, -⟩ := h t.table.size _ (Array.getElem?_eq_getElem (by omega))
  simp at hq

/-- No tick began with a slot that is not taken yet. -/
theorem Charged.ticksOf_size (h : Charged since w) :
    ticksOf since w.scheduler.table.size = 0 := by
  rw [ticksOf, List.countP_eq_zero]
  intro s hs hcurrent
  obtain ⟨hcoherent, hkeeps⟩ := h.starts s hs
  have hlt := hcoherent.current_lt (of_decide_eq_true hcurrent)
  have hle := hkeeps.size_le
  omega

theorem noteTick_of_ne (htick : operation ≠ .tick) (hreset : operation ≠ .reset) :
    noteTick since w operation w' = since := by
  cases operation <;> first | rfl | contradiction

theorem Charged.step (h : Charged since w) (hperform : operation.perform w = .ok (switch, w')) :
    Charged (noteTick since w operation w') w' := by
  have hstep := operation.step hperform
  have hcoherent := h.coherent.step hstep
  have hpending : ∀ p ∈ w'.pending, p.thread.timeUsed = 0 := fun p hp =>
    (Operation.timeUsed_pending hperform hp).elim (h.pending p) id
  by_cases hreset : operation = .reset
  · subst hreset
    obtain ⟨-, rfl⟩ := Prod.mk.inj (Except.ok.inj hperform)
    exact ⟨hcoherent, fun i p hp => by simp [Scheduler.reset, empty] at hp, hpending, nofun⟩
  have hkeeps := hstep.keeps hreset
  have hold : ∀ s ∈ since, Coherent s ∧ Keeps s w'.scheduler := fun s hs =>
    ⟨(h.starts s hs).1, (h.starts s hs).2.trans hkeeps⟩
  have htable : ∀ i q, w'.scheduler.table[i]? = some q → q.thread.timeUsed =
      tickPeriod * ticksOf since i +
        if operation = .tick then share w.scheduler.current i else 0 := by
    intro i q hq
    rcases operation.timeUsed hperform hreset hq with
      ⟨p, hp, htime⟩ | ⟨rfl, ⟨k, rfl⟩, p, hp, -, htime⟩
    · rw [htime, h.table i p hp]
    · rw [htime, h.pending p hp, h.ticksOf_size]
      rfl
  by_cases htick : operation = .tick
  · subst htick
    refine ⟨hcoherent, fun i q hq => ?_, hpending, ?_⟩
    · rw [htable i q hq, if_pos rfl]
      exact (ticksOf_cons w.scheduler since i).symm
    · intro s hs
      rcases List.mem_cons.mp hs with rfl | hs
      · exact ⟨h.coherent, hkeeps⟩
      · exact hold s hs
  · rw [noteTick_of_ne htick hreset]
    refine ⟨hcoherent, fun i q hq => ?_, hpending, hold⟩
    rw [htable i q hq, if_neg htick, Nat.add_zero]

theorem charged_of_performAll (hrun : performAll operations .start = .ok w) :
    Charged (tickStarts operations) w :=
  chronicle_induction charged_start hrun fun h hperform => h.step hperform

/-- The accounts of the whole table. -/
def totalTime (s : Scheduler) : ℕ := (s.table.toList.map (·.thread.timeUsed)).sum

theorem Charged.totalTime_eq (h : Charged since w) :
    w.scheduler.totalTime = tickPeriod * busyTicks since := by
  have haccounts : w.scheduler.table.toList.map (·.thread.timeUsed) =
      (List.range w.scheduler.table.size).map fun i => tickPeriod * ticksOf since i := by
    refine List.ext_getElem? fun i => ?_
    rw [List.getElem?_map, List.getElem?_map, Array.getElem?_toList]
    cases hp : w.scheduler.table[i]? with
    | none =>
      have hi := Array.getElem?_eq_none_iff.mp hp
      rw [List.getElem?_eq_none (by simpa using hi)]
      rfl
    | some p =>
      have hi := (Array.getElem?_eq_some_iff.mp hp).1
      rw [List.getElem?_range hi, Option.map_some, Option.map_some, h.table i p hp]
  have hsum := sum_ticksOf (fun s hs => (h.starts s hs).1) fun s hs => (h.starts s hs).2.size_le
  rw [totalTime, haccounts, ← hsum, Finset.mul_sum]
  rfl

/-- Whoever is in the table afterwards was there before, or comes in now, with the same account. -/
def KeepsAccounts (w w' : Session) : Prop :=
  ∀ (i : ℕ) q, w'.scheduler.table[i]? = some q →
    ∃ p, (w.scheduler.table[i]? = some p ∨ p ∈ w.pending) ∧ SameProcess p q ∧
      q.thread.timeUsed = p.thread.timeUsed

/-- Only the account of the process that a switch leaves is charged. -/
def ChargesPrevious (w w' : Session) (sw : Switch) : Prop :=
  ∃ i, w.scheduler.current = some i ∧ sw.previous = some i ∧
    ∀ (j : ℕ) q, w'.scheduler.table[j]? = some q → ∃ p, w.scheduler.table[j]? = some p ∧
      SameProcess p q ∧ q.thread.timeUsed = p.thread.timeUsed + if i = j then tickPeriod else 0

theorem Keeps.sameProcess (h : Keeps s t) (hp : s.table[i]? = some p) (hq : t.table[i]? = some q) :
    SameProcess p q := by
  obtain ⟨r, hr, -, hsame⟩ := h i p hp
  rwa [← Option.some.inj (hr.symm.trans hq)]

theorem Operation.keepsAccounts (h : operation.perform w = .ok (switch, w'))
    (htick : operation ≠ .tick) : KeepsAccounts w w' := by
  by_cases hreset : operation = .reset
  · subst hreset
    obtain ⟨-, rfl⟩ := Prod.mk.inj (Except.ok.inj h)
    intro i q hq
    simp [Scheduler.reset, empty] at hq
  intro i q hq
  rcases operation.timeUsed h hreset hq with ⟨p, hp, htime⟩ | ⟨-, -, p, hp, hsame, htime⟩
  · rw [if_neg htick, Nat.add_zero] at htime
    exact ⟨p, .inl hp, ((operation.step h).keeps hreset).sameProcess hp hq, htime⟩
  · exact ⟨p, .inr hp, hsame, htime⟩

theorem Charged.chargesPrevious (h : Charged since w) {sw : Switch}
    (htick : Operation.perform w .tick = .ok (some sw, w')) : ChargesPrevious w w' sw := by
  have hstep := Operation.step htick
  obtain ⟨i, -, -, hcurrent, -, -, -, -, hprevious, -⟩ := hstep.handsOver h.coherent
  refine ⟨i, hcurrent, hprevious, fun j q hq => ?_⟩
  rcases Operation.timeUsed htick nofun hq with ⟨p, hp, htime⟩ | ⟨-, ⟨k, hk⟩, -⟩
  · refine ⟨p, hp, (hstep.keeps nofun).sameProcess hp hq, ?_⟩
    rw [if_pos rfl, share, hcurrent] at htime
    simpa only [Option.some.injEq] using htime
  · contradiction

/-- In every session the account of a process counts the ticks that began while it was current,
since nobody leaves its slot till the next reset; all accounts together count the ticks since the
last reset that began with a process in the table. A tick that switches is charged to the process
that is left, and no other operation changes an account. -/
theorem processor_time_is_conserved (hrun : performAll operations .start = .ok w) :
    (∀ (i : ℕ) p, w.scheduler.table[i]? = some p →
      p.thread.timeUsed = tickPeriod * ticksOf (tickStarts operations) i) ∧
    (∀ s ∈ tickStarts operations, Keeps s w.scheduler) ∧
    (∀ p ∈ w.pending, p.thread.timeUsed = 0) ∧
    w.scheduler.totalTime = tickPeriod * busyTicks (tickStarts operations) ∧
    (∀ sw w', Operation.perform w .tick = .ok (some sw, w') → ChargesPrevious w w' sw) ∧
    ∀ (operation : Operation) switch w', operation ≠ .tick →
      operation.perform w = .ok (switch, w') → KeepsAccounts w w' := by
  have hcharged := charged_of_performAll hrun
  exact ⟨hcharged.table, fun s hs => (hcharged.starts s hs).2, hcharged.pending,
    hcharged.totalTime_eq, fun sw w' htick => hcharged.chargesPrevious htick,
    fun operation switch w' htick hperform => operation.keepsAccounts hperform htick⟩

/-- A tick goes by before two processes come; the first one has the processor for the rest of the
quantum, and then the second one. -/
theorem processor_time_is_conserved_of_two_processes :
    ∃ operations w p q, performAll operations .start = .ok w ∧
      w.scheduler.table[0]? = some p ∧ w.scheduler.table[1]? = some q ∧
      p.thread.timeUsed = tickPeriod * 9 ∧ q.thread.timeUsed = tickPeriod * 2 ∧
      w.scheduler.totalTime = tickPeriod * 11 := by
  let operations : List Operation :=
    [.tick, .adopt true, .adopt true, .enlist 0, .enlist 0] ++ List.replicate 11 .tick
  obtain ⟨w, hrun, hsize⟩ : ∃ w, performAll operations .start = .ok w ∧
      some w.scheduler.table.size = some 2 := exists_performAll (by decide +kernel)
  have hsize := Option.some.inj hsize
  obtain ⟨haccount, -, -, htotal, -⟩ := processor_time_is_conserved hrun
  obtain ⟨p, hp⟩ : ∃ p, w.scheduler.table[0]? = some p :=
    ⟨_, Array.getElem?_eq_getElem (by omega)⟩
  obtain ⟨q, hq⟩ : ∃ q, w.scheduler.table[1]? = some q :=
    ⟨_, Array.getElem?_eq_getElem (by omega)⟩
  refine ⟨operations, w, p, q, hrun, hp, hq, ?_, ?_, ?_⟩
  · rw [haccount 0 p hp]
    decide +kernel
  · rw [haccount 1 q hq]
    decide +kernel
  · rw [htotal]
    decide +kernel

end Scheduler

end KernelCore
