/-
  Nachos.Drivers.DrvDisk

  `drivers/drvDisk.cc` over `machine/disk.cc`: the disk takes one request at a time
  and raises an interrupt when it is done; the driver holds a lock from before the
  request until after it has waited for the interrupt on a semaphore.
-/

import Mathlib.Algebra.GroupWithZero.Nat
import Nachos.Filesys.Disk
import Nachos.Kernel.Driver

namespace Nachos
namespace DriverDisk

open Kernel Transition

/-- `ReadSector` and `WriteSector`. -/
inductive Request where
  | read (sectorNumber : Int)
  | write (sectorNumber : Int) (data : Sector)

def Request.sectorNumber : Request → Int
  | read sectorNumber => sectorNumber
  | write sectorNumber _ => sectorNumber

/-- The places in `ReadSector` and `WriteSector`; from the request on, with the
    contents of the caller's buffer. -/
inductive Pc where
  | acquire (r : Request)
  | request (r : Request)
  | wait (data : Sector)
  | release (data : Sector)

structure DiskState where
  active : Bool
  contents : Disk

/-- `Disk::ReadRequest` and `Disk::WriteRequest`: the transfer is done at once, the
    interrupt comes later.  `none` when an `ASSERT` fails. -/
def DiskState.request (d : DiskState) (r : Request) : Option (DiskState × Sector) :=
  if d.active ∨ r.sectorNumber < 0 ∨ r.sectorNumber ≥ NUM_SECTORS then none else
    match r with
    | .read sectorNumber => some ({ d with active := true }, d.contents sectorNumber.toNat)
    | .write sectorNumber data =>
        some (⟨true, Function.update d.contents sectorNumber.toNat data⟩, data)

/-- `Disk::HandleInterrupt` and `DriverDisk::RequestDone`; there is an interrupt only
    when a request has been made. -/
def DiskState.handleInterrupt (d : DiskState) (semaphore : SemId) :
    Option (DiskState × List SemId) :=
  if d.active then some ({ d with active := false }, [semaphore]) else none

/-- `DriverDisk`, with its semaphore and its lock. -/
def driver (semaphore : SemId) (lock : LockId) : Driver DiskState Pc Unit where
  sems := [semaphore]
  locks := [lock]
  entry
    | .acquire _ => true
    | _ => false
  next _ p d :=
    match p with
    | .acquire r => some (some (.lockAcquire lock), d, some (.request r))
    | .request r => (d.request r).map fun x => (none, x.1, some (.wait x.2))
    | .wait data => some (some (.semP semaphore), d, some (.release data))
    | .release _ => some (some (.lockRelease lock), d, none)
  serve d _ := d.handleInterrupt semaphore
  halted _ := false

abbrev State := Driven DiskState Pc
abbrev Moves := List (State × Move Pc Unit)

/-- The start: the semaphore has the value 0, nobody is in the driver. -/
def initial (initialValue : SemId → Int) (semaphore : SemId) (contents : Disk) : State where
  kernel := Kernel.initialized (Function.update initialValue semaphore 0)
  device := ⟨false, contents⟩
  pc _ := none

/-! ## What happens in a run -/

/-- The thread that makes a request in a move. -/
def requester (m : State) : Move Pc Unit → Option ThreadId
  | .advance =>
      match m.pc m.kernel.currentThread with
      | some (.request _) => some m.kernel.currentThread
      | _ => none
  | _ => none

def isInterrupt : Event Unit → Bool
  | .device _ => true
  | .other _ => false

/-- The interrupts of the disk in a move. -/
def interruptsIn : Move Pc Unit → Nat
  | .interrupt es => es.countP isInterrupt
  | .idle es => es.countP isInterrupt
  | _ => 0

/-- The threads that have made a request, in order. -/
def requests (tr : Moves) : List ThreadId := tr.filterMap fun x => requester x.1 x.2

/-- The interrupts there have been. -/
def interrupts (tr : Moves) : Nat := (tr.map fun x => interruptsIn x.2).sum

/-- The threads that have returned from `P` on the semaphore, in order. -/
def consumed (semaphore : SemId) (lock : LockId) (tr : Moves) : List ThreadId :=
  pReturners semaphore ((driver semaphore lock).kernelHistory tr)

@[simp] theorem requests_snoc (tr : Moves) (m : State) (x : Move Pc Unit) :
    requests (tr ++ [(m, x)]) = requests tr ++ (requester m x).toList := by
  cases h : requester m x <;> simp [requests, h]

@[simp] theorem interrupts_snoc (tr : Moves) (m : State) (x : Move Pc Unit) :
    interrupts (tr ++ [(m, x)]) = interrupts tr + interruptsIn x := by
  simp [interrupts]

/-! ## The invariant -/

variable {semaphore : SemId} {lock : LockId}

/-- Who is past `Acquire` has the lock, or is about to get it. -/
def Held (lock : LockId) (tr : History) (k : Kernel) (pc : ThreadId → Option Pc) : Prop :=
  ∀ t p, pc t = some p → (∀ r, p ≠ .acquire r) →
    holds lock tr t = true ∨ InAcquire lock k t ∧ ∃ r, p = .request r

/-- No request is under way. -/
structure Quiet (semaphore : SemId) (reqs cons : List ThreadId) (n : Nat) (active : Bool)
    (k : Kernel) (pc : ThreadId → Option Pc) : Prop where
  requests : reqs = cons
  interrupts : n = cons.length
  idle : active = false
  nobody : ∀ u, ¬ InP semaphore k u ∧ ∀ data, pc u ≠ some (.wait data)

/-- The request of thread `t` is under way: `t` is between the request and the return
    of `P`. -/
structure Busy (semaphore : SemId) (reqs cons : List ThreadId) (n : Nat) (active : Bool)
    (k : Kernel) (pc : ThreadId → Option Pc) (t : ThreadId) : Prop where
  requests : reqs = cons ++ [t]
  interrupts : n + (if active then 1 else 0) = cons.length + 1
  waits : (∃ data, pc t = some (.wait data)) ∧ ¬ InP semaphore k t ∨
    InP semaphore k t ∧ ∃ data, pc t = some (.release data)
  alone : ∀ u, u ≠ t → ¬ InP semaphore k u ∧ ∀ data, pc u ≠ some (.wait data)
  woken : ∀ u ∈ k.readyList, ∀ o, k.resumeOf u = some (.semP semaphore o) → active = false

/-- Requests are made and waited for one at a time. -/
def Stage (semaphore : SemId) (reqs cons : List ThreadId) (n : Nat) (active : Bool) (k : Kernel)
    (pc : ThreadId → Option Pc) : Prop :=
  Quiet semaphore reqs cons n active k pc ∨ ∃ t, Busy semaphore reqs cons n active k pc t

/-- Who is past its request made the last one. -/
def Last (reqs : List ThreadId) (pc : ThreadId → Option Pc) : Prop :=
  ∀ t data, pc t = some (.wait data) ∨ pc t = some (.release data) → reqs.getLast? = some t

section Steps

variable {reqs cons : List ThreadId} {n v : Nat} {active active' : Bool} {k k' : Kernel}
  {pc : ThreadId → Option Pc} {a : Action} {loc : ThreadId → Option Place} {tr : History}

/-- A thread that is outside `P` and not about to call it goes on. -/
theorem Stage.setPc (h : Stage semaphore reqs cons n active k pc) {t : ThreadId} {q : Option Pc}
    (hin : ¬ InP semaphore k t) (hwait : ∀ data, pc t ≠ some (.wait data))
    (hq : ∀ data, q ≠ some (.wait data)) :
    Stage semaphore reqs cons n active k (Function.update pc t q) := by
  have hne : ∀ u data, pc u ≠ some (.wait data) →
      Function.update pc t q u ≠ some (.wait data) := by
    intro u data hu
    by_cases hut : u = t
    · rw [hut, Function.update_self]
      exact hq data
    · rwa [Function.update_of_ne hut]
  rcases h with h | ⟨s, h⟩
  · exact Or.inl ⟨h.requests, h.interrupts, h.idle, fun u =>
      ⟨(h.nobody u).1, fun data => hne u data ((h.nobody u).2 data)⟩⟩
  · have hst : s ≠ t := by
      rintro rfl
      rcases h.waits with ⟨⟨data, hd⟩, -⟩ | ⟨hi, -⟩
      · exact hwait data hd
      · exact hin hi
    refine Or.inr ⟨s, h.requests, h.interrupts, ?_, fun u hu =>
      ⟨(h.alone u hu).1, fun data => hne u data ((h.alone u hu).2 data)⟩, h.woken⟩
    rw [Function.update_of_ne hst]
    exact h.waits

/-- A step of the kernel that is no `P` on the semaphore; `v` interrupts are handled
    in it. -/
theorem Stage.kernelStep (h : Stage semaphore reqs cons n active k pc) (hs : Step k a k')
    (hp : PlacedAt k loc) (hw : NoneQueued k) (ha : a ≠ .semP semaphore)
    (hv : vCalls semaphore a = v)
    (hact : v + (if active' then 1 else 0) = if active then 1 else 0) :
    Stage semaphore reqs (cons ++ (pReturner semaphore k a).toList) (n + v) active' k' pc := by
  have hin : ∀ u, InP semaphore k' u ↔ InP semaphore k u ∧ pReturner semaphore k a ≠ some u := by
    intro u
    rw [hs.inP hp hw]
    simp [ha]
  have hret : ∀ u, pReturner semaphore k a = some u → u ∈ k.readyList ∧
      ∃ o, k.resumeOf u = some (.semP semaphore o) := by
    intro u hu
    obtain ⟨hsw, hr⟩ := switched_of_pReturner ha hu
    exact ⟨ready_of_switched hsw, hr⟩
  rcases h with h | ⟨t, h⟩
  · have hnone : pReturner semaphore k a = none := by
      cases hu : pReturner semaphore k a with
      | none => rfl
      | some u => exact absurd (Or.inr (hret u hu)) (h.nobody u).1
    have hidle := h.idle
    rw [hnone, Option.toList_none, List.append_nil]
    refine Or.inl ⟨h.requests, ?_, ?_, fun u => ⟨fun hu => (h.nobody u).1 ((hin u).mp hu).1,
      (h.nobody u).2⟩⟩
    · have := h.interrupts
      rw [hidle] at hact
      simp at hact
      omega
    · rw [hidle] at hact
      simp at hact
      exact hact.2
  · cases hu : pReturner semaphore k a with
    | some u =>
        -- The thread comes back in `P`: its interrupt has been handled.
        obtain ⟨hready, o, hr⟩ := hret u hu
        have hut : u = t := by
          by_contra hne
          exact (h.alone u hne).1 (Or.inr ⟨hready, o, hr⟩)
        subst hut
        have hidle := h.woken u hready o hr
        rw [hidle] at hact
        simp at hact
        obtain ⟨hv0, hact'⟩ := hact
        have hcount := h.interrupts
        rw [hidle] at hcount
        rw [Option.toList_some]
        refine Or.inl ⟨h.requests, ?_, hact', fun u' => ?_⟩
        · rw [List.length_append, List.length_singleton]
          simp at hcount
          omega
        · by_cases hne : u' = u
          · subst hne
            refine ⟨fun hi => ((hin u').mp hi).2 hu, fun data hd => ?_⟩
            rcases h.waits with ⟨-, hni⟩ | ⟨-, data', hd'⟩
            · exact hni (Or.inr ⟨hready, o, hr⟩)
            · rw [hd] at hd'
              cases hd'
          · exact ⟨fun hi => (h.alone u' hne).1 ((hin u').mp hi).1, (h.alone u' hne).2⟩
    | none =>
        rw [Option.toList_none, List.append_nil]
        refine Or.inr ⟨t, h.requests, ?_, ?_, fun u hne =>
          ⟨fun hi => (h.alone u hne).1 ((hin u).mp hi).1, (h.alone u hne).2⟩, ?_⟩
        · have := h.interrupts
          omega
        · rcases h.waits with ⟨hd, hni⟩ | ⟨hi, hd⟩
          · exact Or.inl ⟨hd, fun hi => hni ((hin t).mp hi).1⟩
          · exact Or.inr ⟨(hin t).mpr ⟨hi, by rw [hu]; simp⟩, hd⟩
        · intro u hready o hr
          cases hact' : active' with
          | false => rfl
          | true =>
              -- Without an interrupt nobody is woken.
              rw [hact'] at hact
              have hv0 : v = 0 := by
                by_contra hne
                cases active <;> simp at hact
                omega
              rw [hv0] at hv
              obtain ⟨hm, -, hr'⟩ := hs.woken_before hp hw hv hready hr
              rw [h.woken u hm o hr'] at hact
              simp at hact

theorem Last.setPc (h : Last reqs pc) (t : ThreadId) {q : Option Pc}
    (hwait : ∀ data, q ≠ some (.wait data)) (hrel : ∀ data, q ≠ some (.release data)) :
    Last reqs (Function.update pc t q) := by
  intro u data hu
  by_cases hut : u = t
  · rw [hut, Function.update_self] at hu
    rcases hu with hu | hu
    · exact absurd hu (hwait data)
    · exact absurd hu (hrel data)
  · rw [Function.update_of_ne hut] at hu
    exact h u data hu

theorem Held.kernelStep (h : Held lock tr k pc) (hs : Step k a k') (hp : PlacedAt k loc)
    (hw : NoneQueued k) (hrel : a = .lockRelease lock → pc k.currentThread = none) :
    Held lock (tr ++ [(k, a)]) k' pc := by
  intro t p ht hpast
  rw [holds_snoc, holdsAfter]
  by_cases hacq : acquires lock k a = some t
  · exact Or.inl (if_pos hacq)
  · rw [if_neg hacq]
    have hne : ¬ (a = .lockRelease lock ∧ k.currentThread = t) := by
      rintro ⟨ha, rfl⟩
      rw [hrel ha] at ht
      cases ht
    rw [if_neg hne]
    rcases h t p ht hpast with hh | ⟨hi, hr⟩
    · exact Or.inl hh
    · exact Or.inr ⟨(hs.inAcquire hp hw).mpr ⟨Or.inl hi, hacq⟩, hr⟩

end Steps

structure Inv (semaphore : SemId) (lock : LockId) (tr : Moves) (m : State) : Prop where
  held : Held lock ((driver semaphore lock).kernelHistory tr) m.kernel m.pc
  vs : vMade semaphore ((driver semaphore lock).kernelHistory tr) = interrupts tr
  stage : Stage semaphore (requests tr) (consumed semaphore lock tr) (interrupts tr)
    m.device.active m.kernel m.pc
  last : Last (requests tr) m.pc

/-- The handlers call `V` on the semaphore once for each interrupt of the disk, and
    there is one only while the disk is active. -/
theorem serveAll_spec {d d' : DiskState} {es : List (Event Unit)} {vs : List SemId}
    (h : (driver semaphore lock).serveAll d es = some (d', vs)) :
    vs.count semaphore = es.countP isInterrupt ∧
      vs.count semaphore + (if d'.active then 1 else 0) = if d.active then 1 else 0 := by
  apply Driver.serveAll_induction (I := fun es d' vs =>
    vs.count semaphore = es.countP isInterrupt ∧
      vs.count semaphore + (if d'.active then 1 else 0) = if d.active then 1 else 0) h
  · simp
  · rintro xs d₁ us s hs ⟨hc, ha⟩
    have hne : s ≠ semaphore := fun he => hs (by simp [driver, he])
    have hcount : (us ++ [s]).count semaphore = us.count semaphore := by
      simp [List.count_append, hne]
    rw [hcount]
    exact ⟨by simp [hc, isInterrupt], ha⟩
  · rintro xs d₁ us e d₂ ws hserve ⟨hc, ha⟩
    change d₁.handleInterrupt semaphore = some (d₂, ws) at hserve
    unfold DiskState.handleInterrupt at hserve
    split at hserve
    · rename_i hact
      obtain ⟨rfl, rfl⟩ := Prod.mk.inj (Option.some.inj hserve)
      have hcount : (us ++ [semaphore]).count semaphore = us.count semaphore + 1 := by
        simp [List.count_append]
      rw [hcount]
      rw [hact] at ha
      exact ⟨by simp [hc, isInterrupt], by simpa using ha⟩
    · cases hserve

namespace Inv

variable {tr : Moves} {m m' : State} {x : Move Pc Unit}

/-- Who is between the request and the release has the lock. -/
theorem holder (h : Inv semaphore lock tr m) {t : ThreadId} {p : Pc} (ht : m.pc t = some p)
    (hpast : ∀ r, p ≠ .acquire r) (hreq : ∀ r, p ≠ .request r) :
    holds lock ((driver semaphore lock).kernelHistory tr) t = true := by
  rcases h.held t p ht hpast with hh | ⟨-, r, hr⟩
  · exact hh
  · exact absurd hr (hreq r)

/-- When the running thread is past `Acquire`, nobody else is past the request. -/
theorem holder_is_current {initialValue : SemId → Int} {contents : Disk}
    (h : Inv semaphore lock tr m)
    (hr : Run (driver semaphore lock).step (initial initialValue semaphore contents) tr m)
    (hrun : m.kernel.sleeping = false) {p p' : Pc} (hp : m.pc m.kernel.currentThread = some p)
    (hpast : ∀ r, p ≠ .acquire r) {t : ThreadId} (ht : m.pc t = some p')
    (hpast' : ∀ r, p' ≠ .acquire r) (hreq : ∀ r, p' ≠ .request r) :
    t = m.kernel.currentThread := by
  have hkr := (driver semaphore lock).kernel_run hr
  obtain ⟨loc, hplaced, -⟩ := (scheduled_of_run hkr).placed
  have hcur : holds lock ((driver semaphore lock).kernelHistory tr) m.kernel.currentThread
      = true := by
    rcases h.held _ p hp hpast with hh | ⟨hi, -⟩
    · exact hh
    · exact absurd hi (hplaced.current_not_in (s := semaphore) hrun).2
  obtain ⟨pend, hlock⟩ := lockInv_of_run hkr lock
  have ht := h.holder ht hpast' hreq
  exact Option.some.inj ((hlock.owner t ht).symm.trans (hlock.owner _ hcur))

theorem busy_is_current {initialValue : SemId → Int} {contents : Disk}
    (h : Inv semaphore lock tr m)
    (hr : Run (driver semaphore lock).step (initial initialValue semaphore contents) tr m)
    (hrun : m.kernel.sleeping = false) {p : Pc} (hp : m.pc m.kernel.currentThread = some p)
    (hpast : ∀ r, p ≠ .acquire r) {t : ThreadId}
    (hb : Busy semaphore (requests tr) (consumed semaphore lock tr) (interrupts tr)
      m.device.active m.kernel m.pc t) : t = m.kernel.currentThread := by
  rcases hb.waits with ⟨⟨data, hd⟩, -⟩ | ⟨-, data, hd⟩
  · exact h.holder_is_current hr hrun hp hpast hd (by simp) (by simp)
  · exact h.holder_is_current hr hrun hp hpast hd (by simp) (by simp)

/-- When the running thread makes a request, or releases the lock, no request is
    under way. -/
theorem quiet {initialValue : SemId → Int} {contents : Disk} (h : Inv semaphore lock tr m)
    (hr : Run (driver semaphore lock).step (initial initialValue semaphore contents) tr m)
    (hrun : m.kernel.sleeping = false) {p : Pc} (hp : m.pc m.kernel.currentThread = some p)
    (hpast : ∀ r, p ≠ .acquire r) (hwait : ∀ data, p ≠ .wait data) :
    Quiet semaphore (requests tr) (consumed semaphore lock tr) (interrupts tr)
      m.device.active m.kernel m.pc := by
  obtain ⟨loc, hplaced, -⟩ := (scheduled_of_run ((driver semaphore lock).kernel_run hr)).placed
  rcases h.stage with hq | ⟨t, hb⟩
  · exact hq
  · exfalso
    obtain rfl := h.busy_is_current hr hrun hp hpast hb
    rcases hb.waits with ⟨⟨data, hd⟩, -⟩ | ⟨hi, -⟩
    · exact hwait data (Option.some.inj (hp.symm.trans hd))
    · exact (hplaced.current_not_in (l := lock) hrun).1 hi

/-- A step of the kernel that is no `P` on the semaphore and no request. -/
theorem kernelStep (h : Inv semaphore lock tr m) {a : Action} {loc : ThreadId → Option Place}
    {pc : ThreadId → Option Pc} (hs : Step m.kernel a m'.kernel)
    (hka : (driver semaphore lock).kernelAction m x = some a)
    (hplaced : PlacedAt m.kernel loc) (hw : NoneQueued m.kernel) (ha : a ≠ .semP semaphore)
    (hreq : requester m x = none) (hv : vCalls semaphore a = interruptsIn x)
    (hact : interruptsIn x + (if m'.device.active then 1 else 0) =
      if m.device.active then 1 else 0)
    (hheld : Held lock ((driver semaphore lock).kernelHistory (tr ++ [(m, x)])) m'.kernel m'.pc)
    (hstage : Stage semaphore (requests tr) (consumed semaphore lock tr) (interrupts tr)
      m.device.active m.kernel pc) (hlast : Last (requests tr) pc) (hpc : m'.pc = pc) :
    Inv semaphore lock (tr ++ [(m, x)]) m' := by
  have hreqs : requests (tr ++ [(m, x)]) = requests tr := by
    rw [requests_snoc, hreq, Option.toList_none, List.append_nil]
  refine ⟨hheld, ?_, ?_, ?_⟩
  · rw [Driver.kernelHistory_snoc, hka, interrupts_snoc, ← h.vs, ← hv]
    exact vMade_snoc _ _ _ _
  · have hcons : consumed semaphore lock (tr ++ [(m, x)]) =
        consumed semaphore lock tr ++ (pReturner semaphore m.kernel a).toList := by
      rw [consumed, Driver.kernelHistory_snoc, hka]
      exact pReturners_snoc _ _ _ _
    rw [hreqs, interrupts_snoc, hcons, hpc]
    exact hstage.kernelStep hs hplaced hw ha hv hact
  · rw [hreqs, hpc]
    exact hlast

section Advance

variable {initialValue : SemId → Int} {contents : Disk} {loc : ThreadId → Option Place}

theorem acquire (h : Inv semaphore lock tr m) (hs : Step m.kernel (.lockAcquire lock) m'.kernel)
    (hka : (driver semaphore lock).kernelAction m .advance = some (.lockAcquire lock))
    (hplaced : PlacedAt m.kernel loc) (hw : NoneQueued m.kernel) (hrun : m.kernel.sleeping = false)
    {r : Request} (hp : m.pc m.kernel.currentThread = some (.acquire r))
    (hdev : m'.device = m.device)
    (hpc : m'.pc = Function.update m.pc m.kernel.currentThread (some (.request r))) :
    Inv semaphore lock (tr ++ [(m, .advance)]) m' := by
  have hnot := hplaced.current_not_in (s := semaphore) (l := lock) hrun
  refine h.kernelStep hs hka hplaced hw (by simp) (by simp [requester, hp]) rfl ?_ ?_
    (h.stage.setPc hnot.1 (by simp [hp]) (by simp))
    (h.last.setPc _ (by simp) (by simp)) hpc
  · rw [hdev]
    simp [interruptsIn]
  · have hheld := h.held.kernelStep hs hplaced hw (by simp)
    rw [Driver.kernelHistory_snoc, hka, hpc]
    intro t p ht hpast
    by_cases htc : t = m.kernel.currentThread
    · -- It has the lock at once, or waits for it.
      subst htc
      rw [Function.update_self] at ht
      obtain rfl := Option.some.inj ht
      by_cases hacq : acquires lock m.kernel (.lockAcquire lock) = some m.kernel.currentThread
      · left
        show holds lock (_ ++ [(m.kernel, Action.lockAcquire lock)]) _ = true
        rw [holds_snoc, holdsAfter, if_pos hacq]
      · exact Or.inr ⟨(hs.inAcquire hplaced hw).mpr ⟨Or.inr ⟨rfl, rfl⟩, hacq⟩, r, rfl⟩
    · rw [Function.update_of_ne htc] at ht
      exact hheld t p ht hpast

/-- The request finds the disk idle. -/
theorem request (h : Inv semaphore lock tr m)
    (hr : Run (driver semaphore lock).step (initial initialValue semaphore contents) tr m)
    (hka : (driver semaphore lock).kernelAction m .advance = none)
    (hrun : m.kernel.sleeping = false) {r : Request}
    (hp : m.pc m.kernel.currentThread = some (.request r)) {data : Sector}
    (hreq : m.device.request r = some (m'.device, data)) (hk : m'.kernel = m.kernel)
    (hpc : m'.pc = Function.update m.pc m.kernel.currentThread (some (.wait data))) :
    Inv semaphore lock (tr ++ [(m, .advance)]) m' := by
  obtain ⟨loc, hplaced, -⟩ := (scheduled_of_run ((driver semaphore lock).kernel_run hr)).placed
  have hnot := hplaced.current_not_in (s := semaphore) (l := lock) hrun
  have hq := h.quiet hr hrun hp (by simp) (by simp)
  -- The disk is busy from here on.
  have hact : m'.device.active = true := by
    unfold DiskState.request at hreq
    split at hreq
    · cases hreq
    · cases r with
      | read n => rw [← (Prod.mk.inj (Option.some.inj hreq)).1]
      | write n data => rw [← (Prod.mk.inj (Option.some.inj hreq)).1]
  -- The kernel has nothing to do with the request.
  have hhist : (driver semaphore lock).kernelHistory (tr ++ [(m, .advance)]) =
      (driver semaphore lock).kernelHistory tr :=
    Driver.kernelHistory_none hka
  have hother : ∀ u, u ≠ m.kernel.currentThread →
      Function.update m.pc m.kernel.currentThread (some (Pc.wait data)) u = m.pc u := fun u hu =>
    Function.update_of_ne hu _ _
  refine ⟨?_, ?_, Or.inr ⟨m.kernel.currentThread, ?_, ?_, Or.inl ⟨⟨data, ?_⟩, ?_⟩, ?_, ?_⟩, ?_⟩
  · rw [hhist, hk, hpc]
    intro t p ht hpast
    by_cases htc : t = m.kernel.currentThread
    · subst htc
      rcases h.held _ _ hp (by simp) with hh | ⟨hi, -⟩
      · exact Or.inl hh
      · exact absurd hi hnot.2
    · rw [hother t htc] at ht
      exact h.held t p ht hpast
  · rw [hhist, interrupts_snoc]
    exact h.vs
  · rw [requests_snoc, consumed, hhist, hq.requests]
    simp [requester, hp, consumed]
  · rw [interrupts_snoc, hact, consumed, hhist, hq.interrupts]
    rfl
  · rw [hpc, Function.update_self]
  · rw [hk]
    exact hnot.1
  · intro u hu
    rw [hk, hpc, hother u hu]
    exact hq.nobody u
  · intro u hu o ho
    rw [hk] at hu ho
    exact absurd (Or.inr ⟨hu, o, ho⟩) (hq.nobody u).1
  · -- Another thread past its request would have the lock as well.
    intro u data' hu
    have hlast : (requests (tr ++ [(m, .advance)])).getLast? = some m.kernel.currentThread := by
      simp [requester, hp]
    by_cases huc : u = m.kernel.currentThread
    · rw [huc]
      exact hlast
    · exfalso
      rw [hpc, hother u huc] at hu
      apply huc
      rcases hu with hu | hu
      · exact absurd hu ((hq.nobody u).2 data')
      · exact h.holder_is_current hr hrun hp (by simp) hu (by simp) (by simp)

/-- `P` returns at once when the interrupt has come, and blocks when it has not. -/
theorem wait (h : Inv semaphore lock tr m)
    (hr : Run (driver semaphore lock).step (initial initialValue semaphore contents) tr m)
    (hs : Step m.kernel (.semP semaphore) m'.kernel)
    (hka : (driver semaphore lock).kernelAction m .advance = some (.semP semaphore))
    (hplaced : PlacedAt m.kernel loc) (hw : NoneQueued m.kernel) (hrun : m.kernel.sleeping = false)
    {data : Sector} (hp : m.pc m.kernel.currentThread = some (.wait data))
    (hdev : m'.device = m.device)
    (hpc : m'.pc = Function.update m.pc m.kernel.currentThread (some (.release data))) :
    Inv semaphore lock (tr ++ [(m, .advance)]) m' := by
  have hkr := (driver semaphore lock).kernel_run hr
  -- The value of the semaphore is the number of interrupts that nobody has consumed.
  have hvalue : (m.kernel.semaphore semaphore).value =
      interrupts tr - (consumed semaphore lock tr).length := by
    have hv := value_of_run hkr semaphore
    rw [pReturned_eq, h.vs, Function.update_self] at hv
    rw [hv, consumed]
    omega
  -- The request under way is that of the running thread.
  obtain ⟨t, hb⟩ := h.stage.resolve_left fun hq => (hq.nobody _).2 data hp
  obtain rfl := h.busy_is_current hr hrun hp (by simp) hb
  have hnot := hplaced.current_not_in (s := semaphore) (l := lock) hrun
  have hcount := hb.interrupts
  have hpc' : ∀ u data', m'.pc u ≠ some (.wait data') := by
    intro u data'
    rw [hpc]
    by_cases hu : u = m.kernel.currentThread
    · subst hu
      simp
    · rw [Function.update_of_ne hu]
      exact (hb.alone u hu).2 data'
  have hreqs : requests (tr ++ [(m, .advance)]) = requests tr := by
    rw [requests_snoc]
    simp [requester, hp]
  refine ⟨?_, ?_, ?_, ?_⟩
  · have hheld := h.held.kernelStep hs hplaced hw (by simp)
    rw [Driver.kernelHistory_snoc, hka, hpc]
    intro u p hu hpast
    by_cases huc : u = m.kernel.currentThread
    · subst huc
      refine Or.inl ?_
      show holds lock (_ ++ [(m.kernel, Action.semP semaphore)]) _ = true
      rw [holds_snoc, holdsAfter]
      split
      · rfl
      · rw [if_neg (by simp)]
        exact h.holder hp (by simp) (by simp)
    · rw [Function.update_of_ne huc] at hu
      exact hheld u p hu hpast
  · rw [Driver.kernelHistory_snoc, hka, interrupts_snoc, ← h.vs]
    exact vMade_snoc _ _ _ _
  · have hcons : consumed semaphore lock (tr ++ [(m, .advance)]) =
        consumed semaphore lock tr ++
          (pReturner semaphore m.kernel (.semP semaphore)).toList := by
      rw [consumed, Driver.kernelHistory_snoc, hka]
      exact pReturners_snoc _ _ _ _
    have hints : interrupts (tr ++ [(m, .advance)]) = interrupts tr := interrupts_snoc _ _ _
    rw [hcons, hreqs, hints, hdev]
    -- `P` returns at once, and the disk is quiet again; or the interrupt is still to come.
    by_cases hpos : 0 < (m.kernel.semaphore semaphore).value
    · have hret : pReturner semaphore m.kernel (.semP semaphore) = some m.kernel.currentThread :=
        if_pos ⟨rfl, hpos⟩
      have hidle : m.device.active = false := by
        by_contra hne
        rw [Bool.not_eq_false] at hne
        rw [hne] at hcount
        simp at hcount
        omega
      rw [hidle] at hcount
      simp at hcount
      rw [hret]
      refine Or.inl ⟨hb.requests, by simp [hcount], hidle, fun u => ⟨fun hi => ?_, hpc' u⟩⟩
      obtain ⟨hu | ⟨-, hu⟩, hne⟩ := (hs.inP hplaced hw).mp hi
      · by_cases huc : u = m.kernel.currentThread
        · subst huc
          exact hne hret
        · exact (hb.alone u huc).1 hu
      · exact hne (hu ▸ hret)
    · have hret : pReturner semaphore m.kernel (.semP semaphore) = none := by
        simp [pReturner, hpos, returning, switched, returnsInP]
      have hactive : m.device.active = true := by
        by_contra hne
        rw [Bool.not_eq_true] at hne
        rw [hne] at hcount
        simp at hcount
        omega
      rw [hret, Option.toList_none, List.append_nil]
      refine Or.inr ⟨m.kernel.currentThread, hb.requests, hcount, Or.inr ⟨?_, data, ?_⟩, ?_, ?_⟩
      · exact (hs.inP hplaced hw).mpr ⟨Or.inr ⟨rfl, rfl⟩, by simp [hret]⟩
      · rw [hpc, Function.update_self]
      · intro u hu
        refine ⟨fun hi => ?_, hpc' u⟩
        obtain ⟨hi' | ⟨-, hi'⟩, -⟩ := (hs.inP hplaced hw).mp hi
        · exact (hb.alone u hu).1 hi'
        · exact hu hi'
      · intro u hu o ho
        obtain ⟨hm, -, ho'⟩ := hs.woken_before hplaced hw rfl hu ho
        exact hb.woken u hm o ho'
  · rw [hreqs]
    intro u data' hu
    by_cases huc : u = m.kernel.currentThread
    · subst huc
      exact h.last _ data (Or.inl hp)
    · rw [hpc, Function.update_of_ne huc] at hu
      exact h.last u data' hu

theorem release (h : Inv semaphore lock tr m)
    (hs : Step m.kernel (.lockRelease lock) m'.kernel)
    (hka : (driver semaphore lock).kernelAction m .advance = some (.lockRelease lock))
    (hplaced : PlacedAt m.kernel loc) (hw : NoneQueued m.kernel) (hrun : m.kernel.sleeping = false)
    {data : Sector} (hp : m.pc m.kernel.currentThread = some (.release data))
    (hdev : m'.device = m.device)
    (hpc : m'.pc = Function.update m.pc m.kernel.currentThread none) :
    Inv semaphore lock (tr ++ [(m, .advance)]) m' := by
  have hnot := hplaced.current_not_in (s := semaphore) (l := lock) hrun
  refine h.kernelStep hs hka hplaced hw (by simp) (by simp [requester, hp]) rfl ?_ ?_
    (h.stage.setPc hnot.1 (by simp [hp]) (by simp))
    (h.last.setPc _ (by simp) (by simp)) hpc
  · rw [hdev]
    simp [interruptsIn]
  · have hout : Held lock ((driver semaphore lock).kernelHistory tr) m.kernel m'.pc := by
      intro t p ht hpast
      rw [hpc] at ht
      by_cases htc : t = m.kernel.currentThread
      · subst htc
        simp at ht
      · rw [Function.update_of_ne htc] at ht
        exact h.held t p ht hpast
    rw [Driver.kernelHistory_snoc, hka]
    exact hout.kernelStep hs hplaced hw fun _ => by rw [hpc, Function.update_self]

end Advance

/-- Calling the driver. -/
theorem call (h : Inv semaphore lock tr m) {p : Pc}
    (hka : (driver semaphore lock).kernelAction m (.call p) = none)
    (hplaced : ∃ loc, PlacedAt m.kernel loc) (hrun : m.kernel.sleeping = false)
    (hout : m.pc m.kernel.currentThread = none) (hentry : ∃ r, p = .acquire r)
    (hk : m'.kernel = m.kernel) (hdev : m'.device = m.device)
    (hpc : m'.pc = Function.update m.pc m.kernel.currentThread (some p)) :
    Inv semaphore lock (tr ++ [(m, .call p)]) m' := by
  obtain ⟨loc, hplaced⟩ := hplaced
  obtain ⟨r, rfl⟩ := hentry
  have hnot := hplaced.current_not_in (s := semaphore) (l := lock) hrun
  have hhist : (driver semaphore lock).kernelHistory (tr ++ [(m, .call (.acquire r))]) =
      (driver semaphore lock).kernelHistory tr :=
    Driver.kernelHistory_none hka
  have hreqs : requests (tr ++ [(m, .call (.acquire r))]) = requests tr := by
    rw [requests_snoc]
    simp [requester]
  refine ⟨?_, ?_, ?_, ?_⟩
  · rw [hhist, hk, hpc]
    intro t q ht hpast
    by_cases htc : t = m.kernel.currentThread
    · subst htc
      rw [Function.update_self] at ht
      exact absurd (Option.some.inj ht).symm (hpast r)
    · rw [Function.update_of_ne htc] at ht
      exact h.held t q ht hpast
  · rw [hhist, interrupts_snoc]
    exact h.vs
  · rw [hreqs, interrupts_snoc, consumed, hhist, hk, hdev, hpc]
    exact h.stage.setPc hnot.1 (by simp [hout]) (by simp)
  · rw [hreqs, hpc]
    exact h.last.setPc _ (by simp) (by simp)

theorem step {initialValue : SemId → Int} {contents : Disk} (h : Inv semaphore lock tr m)
    (hr : Run (driver semaphore lock).step (initial initialValue semaphore contents) tr m)
    (hs : (driver semaphore lock).step m x = some m') :
    Inv semaphore lock (tr ++ [(m, x)]) m' := by
  have hsched := scheduled_of_run ((driver semaphore lock).kernel_run hr)
  have hw := hsched.noneQueued
  obtain ⟨loc, hplaced, -⟩ := hsched.placed
  obtain ⟨-, oa, heff, hka, hk⟩ := Driver.step_eq _ hs
  cases x with
  | call p =>
      rw [Driver.effect] at heff
      split at heff
      · rename_i hc
        obtain ⟨hrun, hout, hentry⟩ := hc
        obtain ⟨rfl, hx⟩ := Prod.mk.inj (Option.some.inj heff)
        obtain ⟨hdev, hpc⟩ := Prod.mk.inj hx
        obtain ⟨-, hkk⟩ := hk.resolve_right (by simp)
        -- A call begins with `Acquire`.
        have hentry' : ∃ r, p = .acquire r := by
          cases p with
          | acquire r => exact ⟨r, rfl⟩
          | _ => cases hentry
        exact h.call hka ⟨loc, hplaced⟩ hrun (by simpa using hout) hentry' hkk hdev.symm hpc.symm
      · cases heff
  | advance =>
      obtain ⟨hrun, p, a, d, q, hp, hn, he⟩ := Driver.effect_advance heff
      obtain ⟨rfl, hx⟩ := Prod.mk.inj he
      obtain ⟨rfl, hpc⟩ := Prod.mk.inj hx
      cases p with
      | acquire r =>
          obtain ⟨rfl, hx⟩ := Prod.mk.inj (Option.some.inj hn)
          obtain ⟨hdev, rfl⟩ := Prod.mk.inj hx
          obtain ⟨b, hb, hstep⟩ := hk.resolve_left (by simp)
          obtain rfl := Option.some.inj hb
          exact h.acquire hstep hka hplaced hw hrun hp hdev.symm hpc
      | request r =>
          obtain ⟨⟨d, data⟩, hreq, hx⟩ := Option.map_eq_some_iff.mp hn
          obtain ⟨rfl, hx'⟩ := Prod.mk.inj hx
          obtain ⟨rfl, rfl⟩ := Prod.mk.inj hx'
          obtain ⟨-, hkk⟩ := hk.resolve_right (by simp)
          exact h.request hr hka hrun hp hreq hkk hpc
      | wait data =>
          obtain ⟨rfl, hx⟩ := Prod.mk.inj (Option.some.inj hn)
          obtain ⟨hdev, rfl⟩ := Prod.mk.inj hx
          obtain ⟨b, hb, hstep⟩ := hk.resolve_left (by simp)
          obtain rfl := Option.some.inj hb
          exact h.wait hr hstep hka hplaced hw hrun hp hdev.symm hpc
      | release data =>
          obtain ⟨rfl, hx⟩ := Prod.mk.inj (Option.some.inj hn)
          obtain ⟨hdev, rfl⟩ := Prod.mk.inj hx
          obtain ⟨b, hb, hstep⟩ := hk.resolve_left (by simp)
          obtain rfl := Option.some.inj hb
          exact h.release hstep hka hplaced hw hrun hp hdev.symm hpc
  | other a =>
      rw [Driver.effect] at heff
      split at heff
      · rename_i hc
        -- From outside nobody uses the semaphore and the lock of the driver.
        obtain ⟨hsem, hlock⟩ := Driver.outside_ne hc.1
        obtain ⟨hsem, hv⟩ := hsem semaphore (by simp [driver])
        obtain ⟨-, hrel⟩ := hlock lock (by simp [driver])
        obtain ⟨rfl, hx⟩ := Prod.mk.inj (Option.some.inj heff)
        obtain ⟨hdev, hpc⟩ := Prod.mk.inj hx
        obtain ⟨b, hb, hstep⟩ := hk.resolve_left (by simp)
        obtain rfl := Option.some.inj hb
        refine h.kernelStep hstep hka hplaced hw hsem rfl hv ?_ ?_ h.stage h.last hpc.symm
        · rw [← hdev]
          simp [interruptsIn]
        · rw [Driver.kernelHistory_snoc, hka, ← hpc]
          exact h.held.kernelStep hstep hplaced hw fun he => absurd he hrel
      · cases heff
  -- The handler calls `V` once for each interrupt of the disk.
  | interrupt es =>
      obtain ⟨vs, hserve, hka, hstep, hpc⟩ := Driver.step_events .interrupt rfl hs
      obtain ⟨hc, hact⟩ := serveAll_spec hserve
      rw [hc] at hact
      refine h.kernelStep hstep hka hplaced hw (by simp) rfl hc hact ?_ h.stage h.last hpc
      rw [Driver.kernelHistory_snoc, hka, hpc]
      exact h.held.kernelStep hstep hplaced hw (by simp)
  | idle es =>
      obtain ⟨vs, hserve, hka, hstep, hpc⟩ := Driver.step_events .idle rfl hs
      obtain ⟨hc, hact⟩ := serveAll_spec hserve
      rw [hc] at hact
      refine h.kernelStep hstep hka hplaced hw (by simp) rfl hc hact ?_ h.stage h.last hpc
      rw [Driver.kernelHistory_snoc, hka, hpc]
      exact h.held.kernelStep hstep hplaced hw (by simp)

end Inv

theorem inv_of_run {initialValue : SemId → Int} {contents : Disk} {tr : Moves} {m : State}
    (hr : Run (driver semaphore lock).step (initial initialValue semaphore contents) tr m) :
    Inv semaphore lock tr m := by
  induction hr with
  | nil =>
      have hnone : ∀ u, ¬ InP semaphore (initial initialValue semaphore contents).kernel u := by
        rintro u (h | ⟨h, -⟩)
        · cases h
        · cases h
      exact {
        held := fun t p ht => nomatch ht
        vs := rfl
        stage := Or.inl ⟨rfl, rfl, rfl, fun u => ⟨hnone u, fun _ h => nomatch h⟩⟩
        last := fun t data ht => by rcases ht with ht | ht <;> cases ht }
  | snoc hr hs ih => exact ih.step hr hs

/-- In every run: the disk gets no request while it is active; a call is about to
    return only when the last request was its own and the interrupt for it has come;
    the `k`-th return of `P` is to the thread that made the `k`-th request, and comes
    after the `k`-th interrupt; and the semaphore has the value 0 while the lock is
    free. -/
theorem requests_serialized (initialValue : SemId → Int) (semaphore : SemId) (lock : LockId)
    (contents : Disk) (tr : Moves) (m : State)
    (hr : Run (driver semaphore lock).step (initial initialValue semaphore contents) tr m) :
    (∀ r, m.kernel.sleeping = false → m.pc m.kernel.currentThread = some (.request r) →
      m.device.active = false) ∧
    (∀ data, m.kernel.sleeping = false → m.pc m.kernel.currentThread = some (.release data) →
      (requests tr).getLast? = some m.kernel.currentThread ∧
        interrupts tr = (requests tr).length) ∧
    consumed semaphore lock tr <+: requests tr ∧
    (consumed semaphore lock tr).length ≤ interrupts tr ∧
    interrupts tr ≤ (requests tr).length ∧
    ((m.kernel.lock lock).free = true → (m.kernel.semaphore semaphore).value = 0) := by
  have hinv := inv_of_run hr
  have hkr := (driver semaphore lock).kernel_run hr
  refine ⟨fun r hrun hp => (hinv.quiet hr hrun hp (by simp) (by simp)).idle,
    fun data hrun hp => ?_, ?_, ?_, ?_, fun hfree => ?_⟩
  · have hq := hinv.quiet hr hrun hp (by simp) (by simp)
    exact ⟨hinv.last _ data (Or.inr hp), by rw [hq.requests, hq.interrupts]⟩
  -- Quiet, or one request further.
  · rcases hinv.stage with hq | ⟨t, hb⟩
    · rw [hq.requests]
    · rw [hb.requests]
      exact List.prefix_append _ _
  · rcases hinv.stage with hq | ⟨t, hb⟩
    · rw [hq.interrupts]
    · have := hb.interrupts
      split at this <;> omega
  · rcases hinv.stage with hq | ⟨t, hb⟩
    · rw [hq.interrupts, hq.requests]
    · rw [hb.requests, List.length_append, List.length_singleton]
      have := hb.interrupts
      omega
  · have hv := value_of_run hkr semaphore
    rw [pReturned_eq, hinv.vs] at hv
    rcases hinv.stage with hq | ⟨t, hb⟩
    · have hn := hq.interrupts
      rw [consumed] at hn
      rw [hv]
      simp
      omega
    · -- The thread whose request is under way has the lock.
      exfalso
      obtain ⟨pend, hlock⟩ := lockInv_of_run hkr lock
      have hnone := hlock.free_iff.mp hfree
      have hholds : holds lock ((driver semaphore lock).kernelHistory tr) t = true := by
        rcases hb.waits with ⟨⟨data, hd⟩, -⟩ | ⟨-, data, hd⟩
        · exact hinv.holder hd (by simp) (by simp)
        · exact hinv.holder hd (by simp) (by simp)
      rw [hlock.owner t hholds] at hnone
      cases hnone

/-- The main thread reads a sector: it waits for the interrupt, which comes while the
    processor idles, and is about to release the lock. -/
theorem requests_serialized_read :
    ∃ tr m, Run (driver 0 0).step (initial (fun _ => 0) 0 fun _ _ => 0) tr m ∧
      (m.kernel.sleeping = false ∧ (m.pc m.kernel.currentThread).isSome ∧
        requests tr = [0] ∧ consumed 0 0 tr = [0] ∧ interrupts tr = 1) ∧
      (∀ r, m.kernel.sleeping = false → m.pc m.kernel.currentThread = some (.request r) →
        m.device.active = false) ∧
      (∀ data, m.kernel.sleeping = false →
        m.pc m.kernel.currentThread = some (.release data) →
        (requests tr).getLast? = some m.kernel.currentThread ∧
          interrupts tr = (requests tr).length) ∧
      consumed 0 0 tr <+: requests tr ∧
      (consumed 0 0 tr).length ≤ interrupts tr ∧
      interrupts tr ≤ (requests tr).length ∧
      ((m.kernel.lock 0).free = true → (m.kernel.semaphore 0).value = 0) := by
  obtain ⟨⟨tr, m⟩, he, hx⟩ := Option.map_eq_some_iff.mp
    (show (exec (driver 0 0).step (initial (fun _ => 0) 0 fun _ _ => 0)
        [.call (.acquire (.read 0)), .advance, .advance, .advance, .idle [.device ()],
          .other .dispatch]).map
            (fun x => (x.2.kernel.sleeping, (x.2.pc x.2.kernel.currentThread).isSome,
              requests x.1, consumed 0 0 x.1, interrupts x.1)) =
        some (false, true, [0], [0], 1) by decide)
  simp only [Prod.mk.injEq] at hx
  exact ⟨tr, m, run_of_exec he, hx, requests_serialized _ 0 0 _ tr m (run_of_exec he)⟩

end DriverDisk
end Nachos
