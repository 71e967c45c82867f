/-
  Nachos.Programs.ProdCons

  The program `test/prodcons.c`.  Producers and consumers share a buffer of `BSIZE` places;
  the program counts the items instead of storing them, so the two sides are the same code
  with the semaphores exchanged.  Each side has a lock of its own, and a thread waits for a
  place, or for an item, while it has the lock.

  A counter is changed by a load and a store, and a thread may lose the processor between
  them.  The threads are created and joined by `main`, which is not part of the driver: a
  thread calls `producer` or `consumer` when it starts.
-/

import Nachos.Kernel.Monitor

namespace Nachos
namespace ProdCons

open Kernel Transition

/-- Buffer size. -/
def BSIZE : Nat := 10

/-- Loop count of producers and consumers. -/
def TLIM : Nat := 40

/-- The two kinds of threads. -/
inductive Role where
  | prod
  | cons
deriving DecidableEq, Repr

/-- The semaphores and the locks that `main` creates. -/
structure Objects where
  occupied : SemId
  empty : SemId
  pmut : LockId
  cmut : LockId
  sems_ne : occupied ≠ empty
  locks_ne : pmut ≠ cmut

/-- The variables that the threads change. -/
structure Vars where
  balance_cons : BitVec 32
  nb_actions_cons : BitVec 32
  balance_prod : BitVec 32
  nb_actions_prod : BitVec 32
deriving DecidableEq, Repr

namespace Vars

variable (d : Vars)

def balance : Role → BitVec 32
  | .prod => d.balance_prod
  | .cons => d.balance_cons

def nb_actions : Role → BitVec 32
  | .prod => d.nb_actions_prod
  | .cons => d.nb_actions_cons

def setBalance (x : BitVec 32) : Role → Vars
  | .prod => { d with balance_prod := x }
  | .cons => { d with balance_cons := x }

def setNb_actions (x : BitVec 32) : Role → Vars
  | .prod => { d with nb_actions_prod := x }
  | .cons => { d with nb_actions_cons := x }

@[simp] theorem balance_setBalance (x : BitVec 32) (r r' : Role) :
    (d.setBalance x r).balance r' = if r' = r then x else d.balance r' := by
  cases r <;> cases r' <;> rfl

@[simp] theorem nb_actions_setBalance (x : BitVec 32) (r r' : Role) :
    (d.setBalance x r).nb_actions r' = d.nb_actions r' := by
  cases r <;> cases r' <;> rfl

@[simp] theorem balance_setNb_actions (x : BitVec 32) (r r' : Role) :
    (d.setNb_actions x r).balance r' = d.balance r' := by
  cases r <;> cases r' <;> rfl

@[simp] theorem nb_actions_setNb_actions (x : BitVec 32) (r r' : Role) :
    (d.setNb_actions x r).nb_actions r' = if r' = r then x else d.nb_actions r' := by
  cases r <;> cases r' <;> rfl

/-- What `main` prints at the end: the balance and the number of actions. -/
def printed : BitVec 32 × BitVec 32 :=
  (d.balance_cons + d.balance_prod, d.nb_actions_cons + d.nb_actions_prod)

end Vars

/-- The parameters of the code of one side: its lock, the semaphore it waits on, the one it
    counts up, and what it adds to its balance. -/
structure Routine where
  mutex : LockId
  waits : SemId
  posts : SemId
  delta : BitVec 32

namespace Objects

variable (O : Objects)

def producer : Routine := ⟨O.pmut, O.empty, O.occupied, 1⟩

def consumer : Routine := ⟨O.cmut, O.occupied, O.empty, -1⟩

def routine : Role → Routine
  | .prod => O.producer
  | .cons => O.consumer

end Objects

/-- The places of a thread of one side, in round `i`: at the test of the loop, before `P`,
    before the load and the store of each counter, before `V`, and before `LockRelease`. -/
inductive Pc where
  | loop (r : Role) (i : Nat)
  | wait (r : Role) (i : Nat)
  | loadActions (r : Role) (i : Nat)
  | storeActions (r : Role) (i : Nat) (x : BitVec 32)
  | loadBalance (r : Role) (i : Nat)
  | storeBalance (r : Role) (i : Nat) (x : BitVec 32)
  | signal (r : Role) (i : Nat)
  | release (r : Role) (i : Nat)
deriving DecidableEq, Repr

/-- The side of a thread. -/
def Pc.role : Pc → Role
  | .loop r _ => r
  | .wait r _ => r
  | .loadActions r _ => r
  | .storeActions r _ _ => r
  | .loadBalance r _ => r
  | .storeBalance r _ _ => r
  | .signal r _ => r
  | .release r _ => r

/-- The program, on top of the kernel.  It has no interrupts of its own. -/
def program (O : Objects) : Driver Vars Pc Empty where
  sems := [O.occupied, O.empty]
  locks := [O.pmut, O.cmut]
  entry
    | .loop _ i => i = 0
    | _ => false
  next _ p d :=
    match p with
    | .loop r i =>
        if i < TLIM then some (some (.lockAcquire (O.routine r).mutex), d, some (.wait r i))
        else some (none, d, none)
    | .wait r i => some (some (.semP (O.routine r).waits), d, some (.loadActions r i))
    | .loadActions r i => some (none, d, some (.storeActions r i (d.nb_actions r)))
    | .storeActions r i x => some (none, d.setNb_actions (x + 1) r, some (.loadBalance r i))
    | .loadBalance r i => some (none, d, some (.storeBalance r i (d.balance r)))
    | .storeBalance r i x =>
        some (none, d.setBalance (x + (O.routine r).delta) r, some (.signal r i))
    | .signal r i => some (some (.semV (O.routine r).posts), d, some (.release r i))
    | .release r i => some (some (.lockRelease (O.routine r).mutex), d, some (.loop r (i + 1)))
  serve _ e := nomatch e
  halted _ := false

abbrev Moves := List (Driven Vars Pc × Kernel.Move Pc Empty)

/-- The start: the semaphores and the variables as `main` sets them, nobody in the routines. -/
def initial (O : Objects) (initialValue : SemId → Int) : Driven Vars Pc where
  kernel :=
    Kernel.initialized (Function.update (Function.update initialValue O.occupied 0) O.empty BSIZE)
  device := ⟨0, 0, 0, 0⟩
  pc _ := none

/-- The calls of `producer`, or of `consumer`. -/
def started (r : Role) (tr : Moves) : Nat :=
  tr.countP fun x => match x.2 with
    | .call p => p.role = r
    | _ => false

/-! ## The instructions -/

/-- What a thread at a place does. -/
inductive Turn (O : Objects) : Pc → Vars → Option Action → Vars → Option Pc → Prop where
  | acquire {r : Role} {i : Nat} {d : Vars} (hi : i < TLIM) :
      Turn O (.loop r i) d (some (.lockAcquire (O.routine r).mutex)) d (some (.wait r i))
  | done {r : Role} {i : Nat} {d : Vars} (hi : ¬ i < TLIM) : Turn O (.loop r i) d none d none
  | wait {r : Role} {i : Nat} {d : Vars} :
      Turn O (.wait r i) d (some (.semP (O.routine r).waits)) d (some (.loadActions r i))
  | loadActions {r : Role} {i : Nat} {d : Vars} :
      Turn O (.loadActions r i) d none d (some (.storeActions r i (d.nb_actions r)))
  | storeActions {r : Role} {i : Nat} {x : BitVec 32} {d : Vars} :
      Turn O (.storeActions r i x) d none (d.setNb_actions (x + 1) r) (some (.loadBalance r i))
  | loadBalance {r : Role} {i : Nat} {d : Vars} :
      Turn O (.loadBalance r i) d none d (some (.storeBalance r i (d.balance r)))
  | storeBalance {r : Role} {i : Nat} {x : BitVec 32} {d : Vars} :
      Turn O (.storeBalance r i x) d none (d.setBalance (x + (O.routine r).delta) r)
        (some (.signal r i))
  | signal {r : Role} {i : Nat} {d : Vars} :
      Turn O (.signal r i) d (some (.semV (O.routine r).posts)) d (some (.release r i))
  | release {r : Role} {i : Nat} {d : Vars} :
      Turn O (.release r i) d (some (.lockRelease (O.routine r).mutex)) d
        (some (.loop r (i + 1)))

theorem next_cases {O : Objects} {t : ThreadId} {p : Pc} {d d' : Vars} {a : Option Action}
    {q : Option Pc} (h : (program O).next t p d = some (a, d', q)) : Turn O p d a d' q := by
  cases p with
  | loop r i =>
      change (if i < TLIM then _ else _) = _ at h
      split at h
      · rename_i hi
        cases h
        exact .acquire hi
      · rename_i hi
        cases h
        exact .done hi
  | wait r i =>
      cases h
      exact .wait
  | loadActions r i =>
      cases h
      exact .loadActions
  | storeActions r i x =>
      cases h
      exact .storeActions
  | loadBalance r i =>
      cases h
      exact .loadBalance
  | storeBalance r i x =>
      cases h
      exact .storeBalance
  | signal r i =>
      cases h
      exact .signal
  | release r i =>
      cases h
      exact .release

/-- Objects with the numbers 0 and 1. -/
def twoOfEach : Objects := ⟨0, 1, 0, 1, by decide, by decide⟩

/-- The main thread makes one item and yields, and thread 1 takes it. -/
def oneItem : List (Kernel.Move Pc Empty) :=
  [.other (.newThread 1), .other (.start 1 0), .call (.loop .prod 0)] ++
    List.replicate 8 .advance ++ [.other .yield, .call (.loop .cons 0)] ++
    List.replicate 8 .advance

theorem oneItem_run :
    ∃ tr m, Run (program twoOfEach).step (initial twoOfEach fun _ => 0) tr m ∧
      started .prod tr = 1 ∧ started .cons tr = 1 ∧ m.device.printed = (0, 2) := by
  obtain ⟨⟨tr, m⟩, he, hx⟩ := Option.map_eq_some_iff.mp
    (show (exec (program twoOfEach).step (initial twoOfEach fun _ => 0) oneItem).map
        (fun x => (started .prod x.1, started .cons x.1, x.2.device.printed)) =
      some (1, 1, (0, 2)) by decide +kernel)
  simp only [Prod.mk.injEq] at hx
  exact ⟨tr, m, run_of_exec he, hx.1, hx.2.1, hx.2.2⟩

/-! ## The sections of the two sides -/

/-- The place is behind `LockAcquire`. -/
def Pc.locked : Pc → Bool
  | .loop _ _ => false
  | _ => true

/-- The places of side `r` with the lock. -/
def Inner (r : Role) (p : Pc) : Prop := p.role = r ∧ p.locked = true

/-- The first of them. -/
def First (r : Role) : Pc → Prop
  | .wait r' _ => r' = r
  | _ => False

section Objects

variable {O : Objects} {r r' : Role}

@[simp] theorem mutex_inj : (O.routine r).mutex = (O.routine r').mutex ↔ r = r' := by
  have := O.locks_ne
  cases r <;> cases r' <;> simp_all [Objects.routine, Objects.producer, Objects.consumer, eq_comm]

@[simp] theorem waits_inj : (O.routine r).waits = (O.routine r').waits ↔ r = r' := by
  have := O.sems_ne
  cases r <;> cases r' <;> simp_all [Objects.routine, Objects.producer, Objects.consumer, eq_comm]

@[simp] theorem posts_inj : (O.routine r).posts = (O.routine r').posts ↔ r = r' := by
  have := O.sems_ne
  cases r <;> cases r' <;> simp_all [Objects.routine, Objects.producer, Objects.consumer, eq_comm]

theorem mutex_mem (O : Objects) (r : Role) : (O.routine r).mutex ∈ (program O).locks := by
  cases r <;> simp [program, Objects.routine, Objects.producer, Objects.consumer]

theorem waits_mem (O : Objects) (r : Role) : (O.routine r).waits ∈ (program O).sems := by
  cases r <;> simp [program, Objects.routine, Objects.producer, Objects.consumer]

theorem posts_mem (O : Objects) (r : Role) : (O.routine r).posts ∈ (program O).sems := by
  cases r <;> simp [program, Objects.routine, Objects.producer, Objects.consumer]

theorem brackets (O : Objects) (r : Role) :
    Brackets (program O) (O.routine r).mutex (Inner r) where
  mem := mutex_mem O r
  entry p hp := by cases p <;> simp_all [program, Inner, Pc.locked]
  enters hn hp hq := by cases next_cases hn <;> simp_all [Inner, Pc.role, Pc.locked]
  acquirer hn := by
    generalize ha : some (Action.lockAcquire (O.routine r).mutex) = a at hn
    cases next_cases hn <;> simp_all [Inner, Pc.locked]
  leaves hn hp hq := by cases next_cases hn <;> simp_all [Inner, Pc.role, Pc.locked]
  releases hn := by
    generalize ha : some (Action.lockRelease (O.routine r).mutex) = a at hn
    cases next_cases hn <;> simp_all [Inner, Pc.role, Pc.locked]

theorem guards (O : Objects) (r : Role) :
    Guards (program O) (O.routine r).mutex (O.routine r).waits (Inner r) (First r) where
  mem := waits_mem O r
  calls hn := by
    generalize ha : some (Action.semP (O.routine r).waits) = a at hn
    cases next_cases hn <;> simp_all [Inner, First, Pc.role, Pc.locked]
  arrives hn := by
    generalize ha : some (Action.lockAcquire (O.routine r).mutex) = a at hn
    cases next_cases hn <;> simp_all [First]

end Objects

/-! ## The counts of a side -/

/-- How far the round is: `P` has been called from 2 on, the number of actions is stored from 4
    on, the balance from 6 on, and `V` has been called from 7 on. -/
def Pc.stage : Pc → Nat
  | .loop _ _ => 0
  | .wait _ _ => 1
  | .loadActions _ _ => 2
  | .storeActions _ _ _ => 3
  | .loadBalance _ _ => 4
  | .storeBalance _ _ _ => 5
  | .signal _ _ => 6
  | .release _ _ => 7

/-- One more from a stage on. -/
def reached (n stage : Nat) : Nat := if n ≤ stage then 1 else 0

/-- The calls of `LockRelease`. -/
def released (l : LockId) (tr : History) : Nat := tr.countP fun x => x.2 = .lockRelease l

@[simp] theorem released_snoc (l : LockId) (tr : History) (k : Kernel) (a : Action) :
    released l (tr ++ [(k, a)]) = released l tr + if a = .lockRelease l then 1 else 0 := by
  by_cases ha : a = .lockRelease l <;> simp [released, ha]

/-- What a side has done: its rounds, its calls of `P` and `V`, and its variables. -/
structure Tally where
  rounds : Nat
  called : Nat
  posted : Nat
  nb_actions : BitVec 32
  balance : BitVec 32

def tally (O : Objects) (r : Role) (tr : Moves) (m : Driven Vars Pc) : Tally where
  rounds := released (O.routine r).mutex ((program O).kernelHistory tr)
  called := pCalled (O.routine r).waits ((program O).kernelHistory tr)
  posted := vMade (O.routine r).posts ((program O).kernelHistory tr)
  nb_actions := m.device.nb_actions r
  balance := m.device.balance r

/-- The tally after an instruction of the side. -/
def Tally.after (v : Tally) (O : Objects) (r : Role) (a : Option Action) (d : Vars) : Tally where
  rounds := v.rounds + if a = some (.lockRelease (O.routine r).mutex) then 1 else 0
  called := v.called + if a = some (.semP (O.routine r).waits) then 1 else 0
  posted := v.posted + a.elim 0 (vCalls (O.routine r).posts)
  nb_actions := d.nb_actions r
  balance := d.balance r

/-- The counts at a stage of a round: as many as there are rounds, and this one. -/
structure Counts (delta : BitVec 32) (stage : Nat) (v : Tally) : Prop where
  called : v.called = v.rounds + reached 2 stage
  nb_actions : v.nb_actions = BitVec.ofNat 32 (v.rounds + reached 4 stage)
  balance : v.balance = BitVec.ofNat 32 (v.rounds + reached 6 stage) * delta
  posted : v.posted = v.rounds + reached 7 stage

/-- What a thread has loaded is what it will find. -/
def Loaded (v : Tally) : Pc → Prop
  | .storeActions _ _ x => x = v.nb_actions
  | .storeBalance _ _ x => x = v.balance
  | _ => True

section Counts

variable {O : Objects} {r : Role} {tr : Moves} {m m' : Driven Vars Pc} {x : Kernel.Move Pc Empty}
  {a : Option Action}

theorem tally_snoc (hka : (program O).kernelAction m x = a) :
    tally O r (tr ++ [(m, x)]) m' = (tally O r tr m).after O r a m'.device := by
  simp only [tally, Tally.after, Driver.kernelHistory_snoc, hka]
  cases a <;> simp

/-- The handlers of other devices leave the variables and the semaphores of the program
    alone. -/
theorem serveAll_others {es : List (Kernel.Event Empty)} {d d' : Vars} {vs : List SemId}
    (h : (program O).serveAll d es = some (d', vs)) :
    d' = d ∧ ∀ s ∈ (program O).sems, vs.count s = 0 := by
  refine Driver.serveAll_induction
    (I := fun _ d' vs => d' = d ∧ ∀ s ∈ (program O).sems, vs.count s = 0) h
    ⟨rfl, fun _ _ => List.count_nil⟩ (fun xs d₁ vs s hs hi => ⟨hi.1, fun s' hs' => ?_⟩)
    (fun _ _ _ e => e.elim)
  have hne : s ≠ s' := fun he => hs (he ▸ hs')
  rw [List.count_append, hi.2 s' hs', List.count_singleton]
  simp [hne]

/-- An instruction that is not one of side `r` with its lock. -/
theorem Turn.frame {p : Pc} {d d' : Vars} {q : Option Pc} (h : Turn O p d a d' q)
    (hp : ¬ Inner r p) :
    a ≠ some (.lockRelease (O.routine r).mutex) ∧ a ≠ some (.semP (O.routine r).waits) ∧
      a.elim 0 (vCalls (O.routine r).posts) = 0 ∧ d'.nb_actions r = d.nb_actions r ∧
      d'.balance r = d.balance r := by
  cases h <;> simp only [Inner, Pc.role, Pc.locked, and_true, Bool.false_eq_true, and_false,
    not_false_eq_true] at hp
  case acquire => simp [vCalls]
  case done => simp
  all_goals simp [hp, Ne.symm hp, vCalls]

/-- A step that is not one of side `r` with its lock. -/
theorem tally_frame (hs : (program O).step m x = some m')
    (hout : ¬ (x = .advance ∧ Inside (Inner r) m m.kernel.currentThread)) :
    tally O r (tr ++ [(m, x)]) m' = tally O r tr m := by
  obtain ⟨-, a, heff, hka, -⟩ := (program O).step_eq hs
  have hmine : ∀ {a : Option Action}, (program O).kernelAction m x = a →
      a ≠ some (.lockRelease (O.routine r).mutex) → a ≠ some (.semP (O.routine r).waits) →
      a.elim 0 (vCalls (O.routine r).posts) = 0 →
      m'.device.nb_actions r = m.device.nb_actions r →
      m'.device.balance r = m.device.balance r →
        tally O r (tr ++ [(m, x)]) m' = tally O r tr m := by
    intro a hka hrel hcall hpost hact hbal
    rw [tally_snoc hka, Tally.after, if_neg hrel, if_neg hcall, hpost, hact, hbal]
    rfl
  cases x with
  | call p =>
      obtain ⟨-, -, -, he⟩ := Driver.effect_call heff
      obtain ⟨rfl, hx⟩ := Prod.mk.inj he
      obtain ⟨hd, -⟩ := Prod.mk.inj hx
      exact hmine hka (by simp) (by simp) rfl (by rw [hd]) (by rw [hd])
  | advance =>
      obtain ⟨-, p, b, d, q, hp, hn, he⟩ := Driver.effect_advance heff
      obtain ⟨rfl, hx⟩ := Prod.mk.inj he
      obtain ⟨hd, -⟩ := Prod.mk.inj hx
      obtain ⟨hrel, hcall, hpost, hact, hbal⟩ :=
        (next_cases hn).frame fun hin => hout ⟨rfl, p, hp, hin⟩
      exact hmine hka hrel hcall hpost (hd ▸ hact) (hd ▸ hbal)
  | other b =>
      obtain ⟨hoff, -, he⟩ := Driver.effect_other heff
      obtain ⟨rfl, hx⟩ := Prod.mk.inj he
      obtain ⟨hd, -⟩ := Prod.mk.inj hx
      obtain ⟨hsem, hlock⟩ := Driver.outside_ne hoff
      refine hmine hka (fun h => ?_) (fun h => ?_) ?_ (by rw [hd]) (by rw [hd])
      · exact (hlock _ (mutex_mem O r)).2 (Option.some.inj h)
      · exact (hsem _ (waits_mem O r)).1 (Option.some.inj h)
      · exact (hsem _ (posts_mem O r)).2
  | interrupt es =>
      obtain ⟨vs, hserve, hka', -⟩ := Driver.step_events .interrupt rfl hs
      obtain ⟨hd, hcount⟩ := serveAll_others hserve
      exact hmine hka' (by simp) (by simp) (hcount _ (posts_mem O r)) (by rw [hd]) (by rw [hd])
  | idle es =>
      obtain ⟨vs, hserve, hka', -⟩ := Driver.step_events .idle rfl hs
      obtain ⟨hd, hcount⟩ := serveAll_others hserve
      exact hmine hka' (by simp) (by simp) (hcount _ (posts_mem O r)) (by rw [hd]) (by rw [hd])

/-- An instruction of side `r` with its lock, which it keeps. -/
theorem Turn.goes {p q : Pc} {d d' : Vars} {v : Tally} (h : Turn O p d a d' (some q))
    (hin : Inner r p) (hq : Inner r q) (hact : d.nb_actions r = v.nb_actions)
    (hbal : d.balance r = v.balance) (hv : Counts (O.routine r).delta p.stage v)
    (hloaded : Loaded v p) :
    Counts (O.routine r).delta q.stage (v.after O r a d') ∧ Loaded (v.after O r a d') q := by
  obtain ⟨rfl, hlocked⟩ := hin
  obtain ⟨h₁, h₂, h₃, h₄⟩ := hv
  cases h with
  | acquire => cases hlocked
  | release => cases hq.2
  | wait =>
      refine ⟨⟨?_, hact.trans h₂, hbal.trans h₃, h₄⟩, trivial⟩
      simpa [Tally.after, Pc.role, reached, Pc.stage] using h₁
  | loadActions => exact ⟨⟨h₁, hact.trans h₂, hbal.trans h₃, h₄⟩, rfl⟩
  | storeActions =>
      refine ⟨⟨h₁, ?_, ?_, h₄⟩, trivial⟩
      · obtain rfl := hloaded
        simp only [reached, Pc.stage] at h₂
        simp [Tally.after, Pc.role, h₂, reached, Pc.stage, BitVec.ofNat_add]
      · exact (d.balance_setNb_actions _ _ _).trans (hbal.trans h₃)
  | loadBalance => exact ⟨⟨h₁, hact.trans h₂, hbal.trans h₃, h₄⟩, rfl⟩
  | storeBalance =>
      refine ⟨⟨h₁, ?_, ?_, h₄⟩, trivial⟩
      · exact (d.nb_actions_setBalance _ _ _).trans (hact.trans h₂)
      · obtain rfl := hloaded
        simp only [reached, Pc.stage] at h₃
        simp [Tally.after, Pc.role, h₃, reached, Pc.stage, BitVec.ofNat_add, BitVec.add_mul]
  | signal =>
      refine ⟨⟨h₁, hact.trans h₂, hbal.trans h₃, ?_⟩, trivial⟩
      simpa [Tally.after, Pc.role, reached, Pc.stage, vCalls] using h₄

/-- The last instruction of a round. -/
theorem Turn.leaves {p : Pc} {q : Option Pc} {d d' : Vars} {v : Tally}
    (h : Turn O p d a d' q) (ha : a = some (.lockRelease (O.routine r).mutex))
    (hact : d.nb_actions r = v.nb_actions) (hbal : d.balance r = v.balance)
    (hv : Counts (O.routine r).delta p.stage v) :
    Counts (O.routine r).delta 0 (v.after O r a d') := by
  obtain ⟨h₁, h₂, h₃, h₄⟩ := hv
  cases h with
  | release =>
      simp only [Option.some.injEq, Action.lockRelease.injEq, mutex_inj] at ha
      subst ha
      refine ⟨?_, hact.trans ?_, hbal.trans ?_, ?_⟩
      · simpa [Tally.after, reached, Pc.stage] using h₁
      · simpa [Tally.after, reached, Pc.stage] using h₂
      · simpa [Tally.after, reached, Pc.stage] using h₃
      · simpa [Tally.after, reached, Pc.stage, vCalls] using h₄
  | _ => simp at ha

/-- The section of a side keeps its counts, instruction by instruction. -/
theorem monitor (O : Objects) (r : Role) (initialValue : SemId → Int) :
    Monitor (program O) (O.routine r).mutex (Inner r) (First r) (initial O initialValue)
      (tally O r) (Counts (O.routine r).delta 0)
      (fun p v => Counts (O.routine r).delta p.stage v ∧ Loaded v p) where
  arrives := (guards O r).arrives
  initial := by
    refine ⟨rfl, ?_, ?_, rfl⟩
    · cases r <;> rfl
    · refine Eq.trans ?_ (BitVec.zero_mul).symm
      cases r <;> rfl
  frame _ hs hout := tally_frame hs hout
  enters {p v} hfirst hv := by
    cases p with
    | wait r' i => exact ⟨⟨hv.called, hv.nb_actions, hv.balance, hv.posted⟩, trivial⟩
    | _ => exact hfirst.elim
  goes {tr m m' p a d q} hs hp hin hn hqin hka hd h := by
    rw [tally_snoc hka, hd]
    exact (next_cases hn).goes hin hqin rfl rfl h.1 h.2
  leaves {tr m m' p d q} hs hp hn hka hd h := by
    rw [tally_snoc hka, hd]
    exact (next_cases hn).leaves rfl rfl rfl h.1

end Counts

/-! ## The two sides -/

def Role.other : Role → Role
  | .prod => .cons
  | .cons => .prod

/-- The units that the semaphore of a side starts with. -/
def units : Role → Nat
  | .prod => BSIZE
  | .cons => 0

theorem Role.other_other (r : Role) : r.other.other = r := by cases r <;> rfl

theorem units_pos (r : Role) : 0 < units r + units r.other := by cases r <;> decide

theorem posts_other (O : Objects) (r : Role) : (O.routine r.other).posts = (O.routine r).waits := by
  cases r <;> rfl

theorem initial_units (O : Objects) (initialValue : SemId → Int) (r : Role) :
    Function.update (Function.update initialValue O.occupied 0) O.empty BSIZE (O.routine r).waits =
      units r := by
  cases r with
  | prod => exact Function.update_self ..
  | cons => exact (Function.update_of_ne O.sems_ne ..).trans (Function.update_self ..)

/-- The state of a side: the stage of the round that is going on, and its counts; a thread that
    waits in `P` is at stage 2. -/
structure Side (O : Objects) (r : Role) (tr : Moves) (m : Driven Vars Pc) (stage : Nat) :
    Prop where
  counts : Counts (O.routine r).delta stage (tally O r tr m)
  owner : ∀ t p, Critical (Inner r) (O.routine r).mutex m t → m.pc t = some p → p.stage = stage
  nobody : (∀ t, ¬ Critical (Inner r) (O.routine r).mutex m t) → stage = 0
  returned : (∃ t, InP (O.routine r).waits m.kernel t) ∧ stage = 2 ∧
      pReturned (O.routine r).waits ((program O).kernelHistory tr) = (tally O r tr m).rounds ∨
    (∀ t, ¬ InP (O.routine r).waits m.kernel t) ∧
      pReturned (O.routine r).waits ((program O).kernelHistory tr) = (tally O r tr m).called
  returned_le : pReturned (O.routine r).waits ((program O).kernelHistory tr) ≤
    units r + (tally O r.other tr m).posted
  queued : ∀ t ∈ (m.kernel.semaphore (O.routine r).waits).queue,
    pReturned (O.routine r).waits ((program O).kernelHistory tr) =
      units r + (tally O r.other tr m).posted

section Run

variable {O : Objects} {initialValue : SemId → Int} {tr : Moves} {m : Driven Vars Pc}
  {t : ThreadId} (hr : Run (program O).step (initial O initialValue) tr m)

include hr

/-- Who waits in `P` is before the load. -/
theorem stage_of_inP {r : Role} (hin : InP (O.routine r).waits m.kernel t) :
    ∃ i, m.pc t = some (.loadActions r i) := by
  have hafter : Inside (fun p => ∃ i, p = .loadActions r i) m t := by
    refine Driver.place_of_inP (waits_mem O r) (fun hn => ?_) rfl hr t hin
    generalize ha : some (Action.semP (O.routine r).waits) = a at hn
    cases next_cases hn <;> simp_all
  obtain ⟨p, hp, i, rfl⟩ := hafter
  exact ⟨i, hp⟩

theorem side_of_run (r : Role) : ∃ stage, Side O r tr m stage := by
  have hlaw := (monitor O r initialValue).of_run (brackets O r) rfl (fun _ => rfl) hr
  have h₀ : 0 ≤ Function.update (Function.update initialValue O.occupied 0) O.empty BSIZE
      (O.routine r).waits := by
    rw [initial_units]
    exact Int.natCast_nonneg _
  have hle := (guards O r).pReturned_le (brackets O r) rfl (fun _ => rfl) hr h₀
  have hqueued := fun t => (guards O r).pReturned_eq_of_queued (t := t) (brackets O r) rfl
    (fun _ => rfl) hr h₀
  have hcalled := (guards O r).pCalled_of_run (brackets O r) rfl (fun _ => rfl) hr h₀
  rw [initial_units] at hle hqueued
  have hposted : (tally O r.other tr m).posted =
      vMade (O.routine r).waits ((program O).kernelHistory tr) := by
    rw [tally, posts_other]
  by_cases hcrit : ∃ t, Critical (Inner r) (O.routine r).mutex m t
  · obtain ⟨t, ht⟩ := hcrit
    obtain ⟨p, hp, -⟩ := ht.1
    obtain ⟨hcounts, -⟩ := hlaw.owner t p ht hp
    have howner : ∀ u q, Critical (Inner r) (O.routine r).mutex m u → m.pc u = some q →
        q = p := by
      intro u q hu hq
      obtain rfl := (brackets O r).unique rfl (fun _ => rfl) hr hu ht
      exact Option.some.inj (hq.symm.trans hp)
    refine ⟨p.stage, hcounts, fun u q hu hq => by rw [howner u q hu hq],
      fun hnone => absurd ht (hnone t), ?_, by omega, fun u hu => by have := hqueued u hu; omega⟩
    rcases hcalled with ⟨⟨u, hu⟩, hcount⟩ | ⟨hnone, hcount⟩
    · obtain ⟨i, hi⟩ := stage_of_inP hr hu
      have hpu := howner u _ ((guards O r).critical_of_inP (brackets O r) rfl hr hu) hi
      have hone : (tally O r tr m).called = (tally O r tr m).rounds + 1 := by
        rw [hcounts.called, ← hpu]
        rfl
      refine Or.inl ⟨⟨u, hu⟩, by rw [← hpu]; rfl, ?_⟩
      have hsame : (tally O r tr m).called =
        pCalled (O.routine r).waits ((program O).kernelHistory tr) := rfl
      omega
    · exact Or.inr ⟨hnone, hcount.symm⟩
  · have hnone : ∀ t, ¬ Critical (Inner r) (O.routine r).mutex m t := fun t ht => hcrit ⟨t, ht⟩
    refine ⟨0, hlaw.nobody hnone, fun t _ ht => absurd ht (hnone t), fun _ => rfl, ?_, by omega,
      fun u hu => by have := hqueued u hu; omega⟩
    rcases hcalled with ⟨⟨u, hu⟩, -⟩ | ⟨hno, hcount⟩
    · exact absurd ((guards O r).critical_of_inP (brackets O r) rfl hr hu) (hnone u)
    · exact Or.inr ⟨hno, hcount.symm⟩

end Run

/-! ## The balance -/

section Balance

variable {O : Objects} {r : Role} {tr : Moves} {m : Driven Vars Pc} {stage stage' : Nat}

/-- The changes that a side has made to its balance. -/
def changes (O : Objects) (r : Role) (tr : Moves) (m : Driven Vars Pc) (stage : Nat) : Nat :=
  (tally O r tr m).rounds + reached 6 stage

theorem reached_le {i j stage : Nat} (h : i ≤ j) : reached j stage ≤ reached i stage := by
  unfold reached
  split <;> split <;> omega

theorem Side.posted_le (h : Side O r tr m stage) :
    (tally O r tr m).posted ≤ changes O r tr m stage := by
  rw [h.counts.posted, changes]
  exact Nat.add_le_add_left (reached_le (by decide)) _

/-- A side makes no more changes than it has had units. -/
theorem Side.changes_le (h : Side O r tr m stage) (h' : Side O r.other tr m stage') :
    changes O r tr m stage ≤ units r + changes O r.other tr m stage' := by
  have hposted := h'.posted_le
  have hunits := h.returned_le
  have hreturned : changes O r tr m stage ≤
      pReturned (O.routine r).waits ((program O).kernelHistory tr) := by
    rcases h.returned with ⟨-, hstage, hret⟩ | ⟨-, hret⟩
    · rw [hret, changes, hstage]
      exact Nat.le_refl _
    · rw [hret, h.counts.called, changes]
      exact Nat.add_le_add_left (reached_le (by decide)) _
  omega

/-- The balance is what the producers have made, less what the consumers have taken. -/
theorem balance_eq (hprod : Side O .prod tr m stage) (hcons : Side O .cons tr m stage')
    {n : Nat} (hn : changes O .prod tr m stage = changes O .cons tr m stage' + n) :
    m.device.printed.1 = BitVec.ofNat 32 n := by
  have h₁ : m.device.balance_prod = BitVec.ofNat 32 (changes O .prod tr m stage) * 1 :=
    hprod.counts.balance
  have h₂ : m.device.balance_cons = BitVec.ofNat 32 (changes O .cons tr m stage') * -1 :=
    hcons.counts.balance
  rw [Vars.printed, h₁, h₂, hn, BitVec.ofNat_add]
  generalize BitVec.ofNat 32 (changes O .cons tr m stage') = x
  generalize BitVec.ofNat 32 n = y
  grind

/-- After `P` there is a unit left for the thread. -/
theorem Side.room (h : Side O r tr m 2) (h' : Side O r.other tr m stage')
    (hnone : ∀ t, ¬ InP (O.routine r).waits m.kernel t) :
    changes O r tr m 2 < units r + changes O r.other tr m stage' := by
  have hposted := h'.posted_le
  have hunits := h.returned_le
  have hcalled := h.counts.called
  have hret := (h.returned.resolve_left fun hc => hc.1.elim hnone).2
  have hone : reached 2 2 = 1 := rfl
  have hzero : changes O r tr m 2 = (tally O r tr m).rounds := rfl
  omega

end Balance

theorem toInt_small {n : Nat} (h : n ≤ BSIZE) : (BitVec.ofNat 32 n).toInt = n := by
  have hn : n < 2 ^ 31 := Nat.lt_of_le_of_lt h (by decide)
  have hnat : (BitVec.ofNat 32 n).toNat = n := by
    rw [BitVec.toNat_ofNat]
    omega
  rw [BitVec.toInt_eq_toNat_of_lt (by omega), hnat]

/-- The test that the source has in a comment, before the counters are changed: there is room
    for an item, or there is an item. -/
def Room (d : Vars) : Role → Prop
  | .prod => d.printed.1.toInt < BSIZE
  | .cons => 0 < d.printed.1.toInt

/-- In every state of every run, whatever threads there are and wherever they lose the
    processor, the balance is between 0 and the size of the buffer, and a thread that has
    come back from `P` finds room for an item, or an item. -/
theorem buffer_never_overflows (O : Objects) (initialValue : SemId → Int) (tr : Moves)
    (m : Driven Vars Pc) (hr : Run (program O).step (initial O initialValue) tr m) :
    0 ≤ m.device.printed.1.toInt ∧ m.device.printed.1.toInt ≤ BSIZE ∧
      ∀ t r i, m.pc t = some (.loadActions r i) → ¬ InP (O.routine r).waits m.kernel t →
        Room m.device r := by
  obtain ⟨stage, hprod⟩ := side_of_run hr .prod
  obtain ⟨stage', hcons⟩ := side_of_run hr .cons
  have hle : changes O .prod tr m stage ≤ BSIZE + changes O .cons tr m stage' :=
    hprod.changes_le hcons
  have hge : changes O .cons tr m stage' ≤ 0 + changes O .prod tr m stage :=
    hcons.changes_le hprod
  obtain ⟨n, hn⟩ := Nat.exists_eq_add_of_le (Nat.zero_add _ ▸ hge)
  have hsize : n ≤ BSIZE := by omega
  have hbalance : m.device.printed.1.toInt = n := by
    rw [balance_eq hprod hcons hn, toInt_small hsize]
  refine ⟨by omega, by omega, fun t r i hp hout => ?_⟩
  -- the thread is the one in the section, and nobody waits in `P`
  have hcrit : Critical (Inner r) (O.routine r).mutex m t :=
    (guards O r).critical (brackets O r) rfl hr hp ⟨rfl, rfl⟩ id
  have hnone : ∀ u, ¬ InP (O.routine r).waits m.kernel u := by
    intro u hu
    have hcrit' := (guards O r).critical_of_inP (brackets O r) rfl hr hu
    obtain rfl := (brackets O r).unique rfl (fun _ => rfl) hr hcrit' hcrit
    exact hout hu
  cases r with
  | prod =>
      obtain rfl : 2 = stage := hprod.owner t _ hcrit hp
      have hroom : changes O .prod tr m 2 < BSIZE + changes O .cons tr m stage' :=
        hprod.room hcons hnone
      show m.device.printed.1.toInt < BSIZE
      omega
  | cons =>
      obtain rfl : 2 = stage' := hcons.owner t _ hcrit hp
      have hroom : changes O .cons tr m 2 < 0 + changes O .prod tr m stage :=
        hcons.room hprod hnone
      show 0 < m.device.printed.1.toInt
      omega

theorem buffer_never_overflows_oneItem :
    ∃ tr m, Run (program twoOfEach).step (initial twoOfEach fun _ => 0) tr m ∧
      started .prod tr = 1 ∧ m.device.printed.1.toInt ≤ BSIZE := by
  obtain ⟨tr, m, hr, hprod, -⟩ := oneItem_run
  exact ⟨tr, m, hr, hprod, (buffer_never_overflows twoOfEach (fun _ => 0) tr m hr).2.1⟩

/-! ## The rounds -/

def Pc.round : Pc → Nat
  | .loop _ i => i
  | .wait _ i => i
  | .loadActions _ i => i
  | .storeActions _ i _ => i
  | .loadBalance _ i => i
  | .storeBalance _ i _ => i
  | .signal _ i => i
  | .release _ i => i

/-- A thread is in the section in a round of the loop only. -/
def InLoop (p : Pc) : Prop := p.locked = true → p.round < TLIM

/-- The rounds of side `r` that a thread has before it. -/
def work (r : Role) (p : Pc) : Nat := if p.role = r then TLIM - p.round else 0

/-- The last instruction of a round of side `r`. -/
def cost (r : Role) : Pc → Nat
  | .release r' _ => if r' = r then 1 else 0
  | _ => 0

section Rounds

variable {O : Objects} {initialValue : SemId → Int} {r : Role} {tr : Moves}
  {m m' : Driven Vars Pc} {x : Kernel.Move Pc Empty} {t : ThreadId}

theorem inLoop_of_run (hr : Run (program O).step (initial O initialValue) tr m) :
    ∀ t p, m.pc t = some p → InLoop p := by
  refine Driver.place_of_run (fun _ => rfl) (fun p hp => ?_) (fun hn hp => ?_) hr
  · cases p with
    | loop r i => exact fun h => by cases h
    | _ => cases hp
  · cases next_cases hn with
    | acquire hi => exact fun _ => hi
    | release => exact fun h => by cases h
    | _ => exact hp

/-- Each round ends with one `LockRelease`. -/
theorem work_next {p : Pc} {d d' : Vars} {a : Option Action} {q : Option Pc}
    (h : Turn O p d a d' q) (hp : InLoop p) : work r p = q.elim 0 (work r) + cost r p := by
  cases h with
  | @done r' i d hi =>
      have hzero : TLIM - i = 0 := by omega
      simp [work, cost, Pc.round, hzero]
  | @release r' i d =>
      have hi : i < TLIM := hp rfl
      by_cases hrole : r' = r
      · simp only [work, Pc.role, hrole, Pc.round, Option.elim_some, cost, if_true]
        omega
      · simp [work, cost, Pc.role, hrole]
  | _ => rfl

theorem spent_rounds (hr : Run (program O).step (initial O initialValue) tr m) :
    spent (cost r) tr = (tally O r tr m).rounds := by
  induction hr with
  | nil => rfl
  | @snoc tr m m' x hr hs ih =>
      by_cases hin : x = .advance ∧ Inside (Inner r) m m.kernel.currentThread
      · obtain ⟨rfl, p, hp, hpin⟩ := hin
        obtain ⟨-, a, heff, hka, -⟩ := (program O).step_eq hs
        obtain ⟨-, p', b, d, q, hp', hn, he⟩ := Driver.effect_advance heff
        obtain rfl := Option.some.inj (hp.symm.trans hp')
        obtain ⟨rfl, -⟩ := Prod.mk.inj he
        have hone : spent (cost r) [(m, (.advance : Kernel.Move Pc Empty))] = cost r p := by
          simp [spent, hp]
        rw [spent_snoc, ih, hone, tally_snoc hka]
        obtain ⟨rfl, -⟩ := hpin
        cases next_cases hn <;> simp [Tally.after, cost, Pc.role]
      · rw [spent_snoc, ih, tally_frame hs hin]
        have hzero : spent (cost r) [(m, x)] = 0 := by
          cases x with
          | advance =>
              obtain ⟨-, a, heff, -⟩ := (program O).step_eq hs
              obtain ⟨-, p, b, d, q, hp, hn, -⟩ := Driver.effect_advance heff
              have hout : ¬ Inner r p := fun h => hin ⟨rfl, p, hp, h⟩
              cases p with
              | release r' i =>
                  have hne : r' ≠ r := fun h => hout ⟨h, rfl⟩
                  simp [spent, hp, cost, hne]
              | _ => simp [spent, hp, cost]
          | _ => rfl
        rw [hzero]
        rfl

/-- A call brings all rounds of the loop. -/
theorem brought_rounds (hr : Run (program O).step (initial O initialValue) tr m) :
    brought (work r) tr = TLIM * started r tr := by
  induction hr with
  | nil => rfl
  | @snoc tr m m' x hr hs ih =>
      obtain ⟨-, a, heff, -⟩ := (program O).step_eq hs
      have hstarted : started r (tr ++ [(m, x)]) = started r tr + started r [(m, x)] := by
        simp [started]
      have hone : brought (work r) [(m, x)] = TLIM * started r [(m, x)] := by
        cases x with
        | call p =>
            obtain ⟨-, -, hentry, -⟩ := Driver.effect_call heff
            cases p with
            | loop r' i =>
                obtain rfl : i = 0 := of_decide_eq_true hentry
                by_cases hrole : r' = r <;>
                  simp [brought, started, work, Pc.role, Pc.round, hrole]
            | _ => cases hentry
        | _ => rfl
      rw [brought_snoc, hstarted, ih, hone, Nat.mul_add]

/-- The rounds of the calls have been made, or are before the threads in the routines. -/
theorem rounds_of_run (hr : Run (program O).step (initial O initialValue) tr m) (r : Role) :
    (∀ t p, m.pc t = some p → p.role = r → p.locked = true →
      (tally O r tr m).rounds < TLIM * started r tr) ∧
    ((∀ t p, m.pc t = some p → p.role ≠ r) →
      (tally O r tr m).rounds = TLIM * started r tr) := by
  have hsum := Driver.work_of_run (work r) (cost r) (fun hr => inLoop_of_run hr)
    (fun hn hp => work_next (next_cases hn) hp) (fun _ => rfl) hr _
    (Driver.threads_of_run (fun _ => rfl) hr)
  rw [spent_rounds hr, brought_rounds hr] at hsum
  refine ⟨fun t p hp hrole hlocked => ?_, fun hnone => ?_⟩
  · have hpos : 0 < work r p := by
      have := inLoop_of_run hr t p hp hlocked
      rw [work, if_pos hrole]
      omega
    have hmem := Driver.threads_of_run (fun _ => rfl) hr t (by rw [hp]; rfl)
    have hle := Finset.single_le_sum (f := fun t => (m.pc t).elim 0 (work r))
      (fun _ _ => Nat.zero_le _) hmem
    simp only [hp, Option.elim_some] at hle
    omega
  · rw [← hsum, Finset.sum_eq_zero fun t _ => ?_, Nat.zero_add]
    cases hp : m.pc t with
    | none => rfl
    | some p => exact if_neg (hnone t p hp)

end Rounds

/-! ## Nobody is stuck -/

section Stuck

variable {O : Objects} {initialValue : SemId → Int} {tr : Moves} {m : Driven Vars Pc}
  (hr : Run (program O).step (initial O initialValue) tr m)

include hr

/-- A thread in the routines goes on, or waits on the semaphore of its side, or for its lock. -/
theorem waits_of_run {t : ThreadId} {p : Pc} (hp : m.pc t = some p) (hout : ¬ Active m.kernel t) :
    t ∈ (m.kernel.semaphore (O.routine p.role).waits).queue ∨
      t ∈ (m.kernel.lock (O.routine p.role).mutex).sleepqueue ∧ First p.role p := by
  have hown : ∀ {t p d a d' q}, (program O).next t p d = some (some a, d', q) →
      Harmless (program O).sems (program O).locks a := by
    intro t p d a d' q hn
    generalize ha : some a = b at hn
    cases next_cases hn with
    | acquire =>
        obtain rfl := Option.some.inj ha
        exact mutex_mem O _
    | wait =>
        obtain rfl := Option.some.inj ha
        exact waits_mem O _
    | signal =>
        obtain rfl := Option.some.inj ha
        trivial
    | release =>
        obtain rfl := Option.some.inj ha
        trivial
    | _ => cases ha
  have hsome : (m.pc t).isSome = true := by
    rw [hp]
    rfl
  have hblocked := (Driver.active_or_blocked hown (fun _ => rfl) hr t hsome).resolve_left hout
  rcases hblocked with ⟨s, hs, hq⟩ | ⟨l, hl, hq⟩
  · obtain ⟨r, rfl⟩ : ∃ r, s = (O.routine r).waits := by
      rcases List.mem_cons.mp hs with rfl | hs
      · exact ⟨.cons, rfl⟩
      · exact ⟨.prod, List.mem_singleton.mp hs⟩
    obtain ⟨i, hi⟩ := stage_of_inP hr (Or.inl hq)
    obtain rfl := Option.some.inj (hp.symm.trans hi)
    exact Or.inl hq
  · obtain ⟨r, rfl⟩ : ∃ r, l = (O.routine r).mutex := by
      rcases List.mem_cons.mp hl with rfl | hl
      · exact ⟨.prod, rfl⟩
      · exact ⟨.cons, List.mem_singleton.mp hl⟩
    obtain ⟨p', hp', hfirst⟩ :=
      Driver.place_of_inAcquire (mutex_mem O r) (guards O r).arrives rfl hr t (Or.inl hq)
    obtain rfl := Option.some.inj (hp.symm.trans hp')
    cases p with
    | wait r' i =>
        obtain rfl : r' = r := hfirst
        exact Or.inr ⟨hq, rfl⟩
    | _ => exact hfirst.elim

/-- When no thread of a side goes on, one of them waits on the semaphore. -/
theorem queued_of_stuck {r : Role} (hstuck : ∀ t, (m.pc t).isSome → ¬ Active m.kernel t)
    {t : ThreadId} {p : Pc} (hp : m.pc t = some p) (hrole : p.role = r) :
    ∃ u, u ∈ (m.kernel.semaphore (O.routine r).waits).queue := by
  subst hrole
  rcases waits_of_run hr hp (hstuck t (by rw [hp]; rfl)) with hq | ⟨hq, -⟩
  · exact ⟨t, hq⟩
  · -- somebody has the lock, and does not wait for it
    obtain ⟨pend, hlock⟩ := lockInv_of_run ((program O).kernel_run hr) (O.routine p.role).mutex
    obtain ⟨u, hu⟩ : ∃ u, (m.kernel.lock (O.routine p.role).mutex).owner = some u := by
      rw [← Option.ne_none_iff_exists']
      intro hnone
      rw [hlock.free_empty (hlock.free_iff.mpr hnone)] at hq
      exact List.not_mem_nil hq
    obtain ⟨⟨p', hp', hin⟩, hnot⟩ := (brackets O p.role).owner_of_run (guards O p.role).arrives
      (fun q hq => by cases q <;> simp_all [First, Inner, Pc.role, Pc.locked]) rfl hr u hu
    rcases waits_of_run hr hp' (hstuck u (by rw [hp']; rfl)) with hq' | ⟨hq', -⟩
    · rw [hin.1] at hq'
      exact ⟨u, hq'⟩
    · rw [hin.1] at hq'
      exact absurd hq' hnot

/-- A side that is stuck has used all units up in whole rounds, and has rounds left. -/
theorem rounds_of_stuck {r : Role} {stage : Nat} (hside : Side O r tr m stage) {u : ThreadId}
    (hu : u ∈ (m.kernel.semaphore (O.routine r).waits).queue) :
    stage = 2 ∧ (tally O r tr m).rounds = units r + (tally O r.other tr m).posted ∧
      (tally O r tr m).rounds < TLIM * started r tr := by
  have hin : InP (O.routine r).waits m.kernel u := Or.inl hu
  have hqueued := hside.queued u hu
  obtain ⟨-, hstage, hret⟩ := hside.returned.resolve_right fun hc => hc.1 u hin
  obtain ⟨i, hi⟩ := stage_of_inP hr hin
  exact ⟨hstage, hret.symm.trans hqueued, (rounds_of_run hr r).1 u _ hi rfl rfl⟩

/-- A side without threads has made all its rounds. -/
theorem rounds_of_gone {r : Role} {stage : Nat} (hside : Side O r tr m stage)
    (hgone : ∀ t p, m.pc t = some p → p.role ≠ r) :
    stage = 0 ∧ (tally O r tr m).rounds = TLIM * started r tr := by
  refine ⟨hside.nobody fun t ht => ?_, (rounds_of_run hr r).2 hgone⟩
  obtain ⟨⟨p, hp, hin⟩, -⟩ := ht
  exact hgone t p hp hin.1

/-- A side does not get stuck as long as there are as many threads of the other. -/
theorem not_stuck {r : Role} {stage stage' : Nat} (hside : Side O r tr m stage)
    (hother : Side O r.other tr m stage') (hequal : started r tr = started r.other tr)
    (hstuck : ∀ t, (m.pc t).isSome → ¬ Active m.kernel t) {t : ThreadId} {p : Pc}
    (hp : m.pc t = some p) (hrole : p.role = r) : False := by
  obtain ⟨u, hu⟩ := queued_of_stuck hr hstuck hp hrole
  obtain ⟨rfl, hfull, hleft⟩ := rounds_of_stuck hr hside hu
  have hposted : (tally O r tr m).posted = (tally O r tr m).rounds := hside.counts.posted
  by_cases ho : ∃ t p, m.pc t = some p ∧ p.role = r.other
  · -- the buffer would be full and empty
    obtain ⟨t', p', hp', hrole'⟩ := ho
    obtain ⟨u', hu'⟩ := queued_of_stuck hr hstuck hp' hrole'
    obtain ⟨rfl, hempty, -⟩ := rounds_of_stuck hr hother hu'
    rw [Role.other_other] at hempty
    have hposted' : (tally O r.other tr m).posted = (tally O r.other tr m).rounds :=
      hother.counts.posted
    have hunits := units_pos r
    omega
  · -- the other side has brought a unit for every round
    obtain ⟨rfl, hall⟩ := rounds_of_gone hr hother fun t p h hr => ho ⟨t, p, h, hr⟩
    have hposted' : (tally O r.other tr m).posted = (tally O r.other tr m).rounds :=
      hother.counts.posted
    rw [hequal] at hleft
    omega

/-- What `main` prints when the threads have come to their ends. -/
theorem printed_of_gone (hequal : started .prod tr = started .cons tr)
    (hnone : ∀ t, m.pc t = none) :
    m.device.printed =
      (0, BitVec.ofNat 32 (TLIM * (started .prod tr + started .cons tr))) := by
  obtain ⟨stage, hprod⟩ := side_of_run hr .prod
  obtain ⟨stage', hcons⟩ := side_of_run hr .cons
  have hgone : ∀ r t p, m.pc t = some p → p.role ≠ r := by
    intro r t p hp
    rw [hnone t] at hp
    cases hp
  obtain ⟨rfl, hall⟩ := rounds_of_gone hr hprod (hgone .prod)
  obtain ⟨rfl, hall'⟩ := rounds_of_gone hr hcons (hgone .cons)
  have hbalance : m.device.printed.1 = BitVec.ofNat 32 0 := by
    refine balance_eq hprod hcons ?_
    show (tally O .prod tr m).rounds = (tally O .cons tr m).rounds
    rw [hall, hall', hequal]
  have hactions : m.device.nb_actions_prod = BitVec.ofNat 32 (tally O .prod tr m).rounds :=
    hprod.counts.nb_actions
  have hactions' : m.device.nb_actions_cons = BitVec.ofNat 32 (tally O .cons tr m).rounds :=
    hcons.counts.nb_actions
  refine Prod.ext hbalance ?_
  show m.device.nb_actions_cons + m.device.nb_actions_prod = _
  rw [hactions, hactions', hall, hall', ← BitVec.ofNat_add, ← Nat.mul_add, Nat.add_comm]

end Stuck

/-- In a state of a run with as many producers as consumers, if a thread is in the routines,
    one of them runs or is ready; and when nobody is, the balance that `main` prints is 0 and
    the number of actions is that of the rounds. -/
theorem program_completes (O : Objects) (initialValue : SemId → Int) (tr : Moves)
    (m : Driven Vars Pc) (hr : Run (program O).step (initial O initialValue) tr m)
    (hequal : started .prod tr = started .cons tr) :
    ((∃ t, (m.pc t).isSome) → ∃ t, (m.pc t).isSome ∧ Active m.kernel t) ∧
      ((∀ t, m.pc t = none) → m.device.printed =
        (0, BitVec.ofNat 32 (TLIM * (started .prod tr + started .cons tr)))) := by
  refine ⟨fun hsome => ?_, printed_of_gone hr hequal⟩
  by_contra hno
  have hstuck : ∀ t, (m.pc t).isSome → ¬ Active m.kernel t := fun t ht hact => hno ⟨t, ht, hact⟩
  obtain ⟨stage, hprod⟩ := side_of_run hr .prod
  obtain ⟨stage', hcons⟩ := side_of_run hr .cons
  obtain ⟨t, ht⟩ := hsome
  obtain ⟨p, hp⟩ := Option.isSome_iff_exists.mp ht
  cases hrole : p.role with
  | prod => exact not_stuck hr hprod hcons hequal hstuck hp hrole
  | cons => exact not_stuck hr hcons hprod hequal.symm hstuck hp hrole

theorem program_completes_oneItem :
    ∃ tr m, Run (program twoOfEach).step (initial twoOfEach fun _ => 0) tr m ∧
      started .prod tr = 1 ∧ started .cons tr = 1 ∧
      ((∃ t, (m.pc t).isSome) → ∃ t, (m.pc t).isSome ∧ Active m.kernel t) := by
  obtain ⟨tr, m, hr, hprod, hcons, -⟩ := oneItem_run
  exact ⟨tr, m, hr, hprod, hcons,
    (program_completes twoOfEach (fun _ => 0) tr m hr (hprod.trans hcons.symm)).1⟩

end ProdCons
end Nachos
