/-
  Nachos.Vm.OpenFiles

  The system calls `Open`, `Mmap` and `Close` (`kernel/exception.cc`) over the virtual
  memory.  The table of the mapped files of an address space keeps the address of an
  `OpenFile` object, and so does `g_object_ids`, where any process finds it; `Close` deletes
  the object, whoever has mapped it.

  An `OpenFile` object is known by a number that is never used twice.  A deleted object keeps
  its contents until it is used, which is the end of what can be said of the run.
-/

import Nachos.Kernel.ObjId
import Nachos.Vm.Mapping

namespace Nachos
namespace Vm

open Transition Ownership

/-- The kernel with the `OpenFile` objects. -/
structure OpenFiles where
  system : System
  /-- The files in `g_object_ids`. -/
  objectIds : ObjId
  /-- The file that a thread in `Close` will delete, and its identifier. -/
  closing : ThreadId → Option (Int × FileId)
  deleted : FileId → Bool
  /-- The number of the next object. -/
  numFiles : FileId

/-- A step of virtual memory, a system call, or the end of `Close`.  `openFile` is given what
    `OpenFileTable::Open` returns. -/
inductive FileMove where
  | move (move : Move)
  | openFile (file : Option File)
  | mmap (fid size : Int)
  | close (fid : Int)
  | closed

variable [VmConfig]

namespace OpenFiles

variable (T : Threads) (s : OpenFiles)

def inUserCode : Bool := s.system.inUserCode T ∧ (s.closing s.system.current).isNone

/-- A thread in `Close` takes no step of virtual memory, and its process has not ended. -/
def mayMove : Move → Bool
  | .switch _ => true
  | .destroy b => (s.closing s.system.current).isNone ∧
      T.all.all fun t => T.process t ≠ b ∨ (s.closing t).isNone
  | _ => (s.closing s.system.current).isNone

/-- A step of the system. -/
def step (maxNumPages : Nat) : FileMove → Option OpenFiles
  | .move move =>
      if s.mayMove T move then (Vm.step T s.system move).map fun x => { s with system := x }
      else none
  | .openFile file =>
      if s.inUserCode T then
        match file with
        | some file =>
            let m := s.system.memory
            some { s with
              system := { s.system with
                memory := { m with files := Function.update m.files s.numFiles file } }
              objectIds := s.objectIds.addObject s.numFiles
              numFiles := s.numFiles + 1 }
        | none => some s
      else none
  | .mmap fid size =>
      if s.inUserCode T then
        match s.objectIds.ids fid with
        | some f =>
            if size > 0 then
              (s.system.mmap T maxNumPages f size.toNat).map fun x => { s with system := x }
            else some s
        | none => some s
      else none
  | .close fid =>
      if s.inUserCode T then
        match s.objectIds.ids fid with
        | some f => some { s with
            closing := Function.update s.closing s.system.current (some (fid, f)) }
        | none => some s
      else none
  | .closed =>
      -- `OpenFileTable::Close` has returned.
      (s.closing s.system.current).map fun r => { s with
        objectIds := s.objectIds.removeObject r.1
        closing := Function.update s.closing s.system.current none
        deleted := Function.update s.deleted r.2 true }

end OpenFiles

/-- The file that is read or written next. -/
def Pc.file : Pc → Option FileId
  | .readFile _ f _ => some f
  | .writeFile _ _ f _ => some f
  | .destroyWrite _ _ f _ _ => some f
  | _ => none

/-- The step reads or writes a file that `findMappedFile` has. -/
def UsesMapped (s : OpenFiles) (move : FileMove) (f : FileId) : Prop :=
  move = .move .advance ∧ (∃ p, s.system.pc s.system.current = some p ∧ p.file = some f) ∧
    ∃ b addr, (s.system.memory.spaces b).findMappedFile addr = some f

/-- The step deletes a file that a process has mapped which has not ended. -/
def ClosesMapped (s : OpenFiles) (move : FileMove) : Prop :=
  move = .closed ∧ ∃ fid f, s.closing s.system.current = some (fid, f) ∧
    ∃ b, s.system.memory.status b ≠ .dead ∧
      ∃ mf ∈ (s.system.memory.spaces b).mapped_files, mf.file = f

/-! ## The address spaces that have not ended -/

/-- A thread in the handler is of a process that lives, and an address space is destroyed by
    one thread. -/
structure Lives (T : Threads) (s : System) : Prop where
  places : ∀ t p, s.pc t = some p → t ∈ T.all
  live : ∀ t p, s.pc t = some p → p.destroys = none → s.memory.status (T.process t) = .live
  dying : ∀ t p b i, s.pc t = some p → p.destroys = some (b, i) → ∃ j, s.memory.status b = .dying j
  one : Exclusive (HeldAt Destroys s.pc)

section Lives

variable {T : Threads} {me : SpaceId} {m m' : Memory} {s s' : System} {p : Pc} {o : Option Pc}
  {move : Move}

theorem Lives.step (h : Lives T s) (hs : Step T s move s') : Lives T s' := by
  -- The threads stay where they are, and the status of the address spaces.
  have huser : ∀ {m'}, m'.status = s.memory.status → Lives T { s with memory := m' } := by
    intro m' hst
    refine ⟨h.places, fun t p hp hd => ?_, fun t p b i hp hd => ?_, h.one⟩
    · exact (congrFun hst _).trans (h.live t p hp hd)
    · rw [hst]
      exact h.dying t p b i hp hd
  cases hs with
  | switch hsw => exact ⟨h.places, h.live, h.dying, h.one⟩
  | load hu hm' => exact huser (readMem_sameFrames hm').status
  | store hu hm' => exact huser (writeMem_sameFrames hm').status
  | fault hu hvalid hallowed =>
      obtain ⟨hmem, hnone, hlive⟩ := System.inUserCode_iff.mp hu
      refine ⟨fun t p hp => ?_, fun t p hp hd => ?_, fun t p b i hp hd => ?_, h.one.update ?_⟩
      · dsimp only at hp
        rw [Function.update_apply] at hp
        split at hp
        · rename_i ht
          exact ht ▸ hmem
        · exact h.places t p hp
      · dsimp only at hp
        rw [Function.update_apply] at hp
        split at hp
        · rename_i ht
          exact ht ▸ hlive
        · exact h.live t p hp hd
      · dsimp only at hp
        rw [Function.update_apply] at hp
        split at hp
        · obtain rfl := Option.some.inj hp
          cases hd
        · exact h.dying t p b i hp hd
      · rintro p hp b ⟨i, hd⟩
        obtain rfl := Option.some.inj hp
        cases hd
  | @destroy b hmem hnone hlive hended =>
      -- No thread of the address space is in a routine, and nobody destroys it yet.
      have hnot : ∀ t p, s.pc t = some p → T.process t ≠ b := by
        rintro t p hp rfl
        have hall := List.all_eq_true.mp hended t (h.places t p hp)
        simp [hp] at hall
      have hnobody : ∀ u, ¬ HeldAt Destroys s.pc u b := by
        rintro u ⟨p, hp, i, hd⟩
        obtain ⟨j, hst⟩ := h.dying u p b i hp hd
        exact nomatch hst.symm.trans hlive
      refine ⟨fun t p hp => ?_, fun t p hp hd => ?_, fun t p b' i hp hd => ?_, h.one.update ?_⟩
      · dsimp only at hp
        rw [Function.update_apply] at hp
        split at hp
        · rename_i ht
          exact ht ▸ hmem
        · exact h.places t p hp
      · dsimp only at hp ⊢
        rw [Function.update_apply] at hp
        split at hp
        · obtain rfl := Option.some.inj hp
          cases hd
        · rw [Function.update_of_ne (hnot t p hp)]
          exact h.live t p hp hd
      · dsimp only at hp ⊢
        rw [Function.update_apply] at hp
        split at hp
        · obtain rfl := Option.some.inj hp
          obtain ⟨rfl, -⟩ := Prod.mk.inj (Option.some.inj hd)
          exact ⟨0, Function.update_self ..⟩
        · have hne : b' ≠ b := by
            rintro rfl
            exact hnobody t (heldAt_of hp ⟨i, hd⟩)
          rw [Function.update_of_ne hne]
          exact h.dying t p b' i hp hd
      · rintro p hp b' ⟨i, hd⟩
        obtain rfl := Option.some.inj hp
        obtain ⟨rfl, -⟩ := Prod.mk.inj (Option.some.inj hd)
        exact Or.inr hnobody
  | @advance p m' o hp hr =>
      have hplaces : ∀ t p', Function.update s.pc s.current o t = some p' → t ∈ T.all := by
        intro t p' hp'
        rw [Function.update_apply] at hp'
        split at hp'
        · rename_i ht
          exact ht ▸ h.places _ _ hp
        · exact h.places t p' hp'
      cases hd : p.destroys with
      | none =>
          have hst := next_status hr hd
          have hnew := next_handler hr hd
          refine ⟨hplaces, fun t p' hp' hd' => ?_, fun t p' b i hp' hd' => ?_, h.one.update ?_⟩
          · dsimp only at hp' ⊢
            rw [hst]
            rw [Function.update_apply] at hp'
            split at hp'
            · rename_i ht
              exact ht ▸ h.live _ _ hp hd
            · exact h.live t p' hp' hd'
          · dsimp only at hp' ⊢
            rw [hst]
            rw [Function.update_apply] at hp'
            split at hp'
            · exact nomatch (hnew p' hp').symm.trans hd'
            · exact h.dying t p' b i hp' hd'
          · rintro p' hp' b ⟨i, hd'⟩
            exact nomatch (hnew p' hp').symm.trans hd'
      | some y =>
          obtain ⟨b, i⟩ := y
          obtain ⟨j, hdying⟩ := h.dying _ _ _ _ hp hd
          obtain ⟨hother, hself⟩ := next_destructor hr hd
          have hown : ∀ t p' b' i', t ≠ s.current → s.pc t = some p' →
              p'.destroys = some (b', i') → b' ≠ b := by
            rintro t p' b' i' ht hp' hd' rfl
            exact ht (h.one t s.current b' (heldAt_of hp' ⟨i', hd'⟩) (heldAt_of hp ⟨i, hd⟩))
          refine ⟨hplaces, fun t p' hp' hd' => ?_, fun t p' b' i' hp' hd' => ?_, h.one.update ?_⟩
          · dsimp only at hp' ⊢
            rw [Function.update_apply] at hp'
            split at hp'
            · rcases hself with ⟨rfl, -⟩ | ⟨p₁, i₁, rfl, hd₁, -⟩
              · cases hp'
              · obtain rfl := Option.some.inj hp'
                exact nomatch hd'.symm.trans hd₁
            · have hlive := h.live t p' hp' hd'
              rw [hother]
              · exact hlive
              · -- The address space that is destroyed does not live.
                rintro he
                rw [he, hdying] at hlive
                cases hlive
          · dsimp only at hp' ⊢
            rw [Function.update_apply] at hp'
            split at hp'
            · rcases hself with ⟨rfl, -⟩ | ⟨p₁, i₁, rfl, hd₁, hst⟩
              · cases hp'
              · obtain rfl := Option.some.inj hp'
                obtain ⟨rfl, -⟩ := Prod.mk.inj (Option.some.inj (hd₁.symm.trans hd'))
                rcases hst with hst | hst
                · exact ⟨j, hst.trans hdying⟩
                · exact hst
            · rename_i ht
              rw [hother b' (hown t p' b' i' ht hp' hd')]
              exact h.dying t p' b' i' hp' hd'
          · rintro p' hp' b' ⟨i', hd'⟩
            left
            rcases hself with ⟨rfl, -⟩ | ⟨p₁, i₁, rfl, hd₁, -⟩
            · cases hp'
            · obtain rfl := Option.some.inj hp'
              obtain ⟨rfl, -⟩ := Prod.mk.inj (Option.some.inj (hd₁.symm.trans hd'))
              exact heldAt_of hp ⟨i, hd⟩

/-- What has ended stays so. -/
theorem Lives.dead (h : Lives T s) (hs : Step T s move s') {b : SpaceId}
    (hdead : s.memory.status b = .dead) : s'.memory.status b = .dead := by
  cases hs with
  | switch hsw => exact hdead
  | load hu hm' => exact (congrFun (readMem_sameFrames hm').status b).trans hdead
  | store hu hm' => exact (congrFun (writeMem_sameFrames hm').status b).trans hdead
  | fault hu hvalid hallowed => exact hdead
  | @destroy b' hmem hnone hlive hended =>
      have hne : b ≠ b' := by
        rintro rfl
        exact nomatch hdead.symm.trans hlive
      exact (Function.update_of_ne hne _ _).trans hdead
  | @advance p m' o hp hr =>
      cases hd : p.destroys with
      | none => exact (congrFun (next_status hr hd) b).trans hdead
      | some y =>
          obtain ⟨b', i⟩ := y
          obtain ⟨j, hdying⟩ := h.dying _ _ _ _ hp hd
          have hne : b ≠ b' := by
            rintro rfl
            exact nomatch hdead.symm.trans hdying
          exact ((next_destructor hr hd).1 b hne).trans hdead

end Lives

/-! ## The files that the threads work with -/

/-- The address space that a thread works on. -/
def Pc.space (T : Threads) (t : ThreadId) (p : Pc) : SpaceId :=
  match p.destroys with
  | some (b, _) => b
  | none => T.process t

/-- The executable file, or a mapped one. -/
def AddrSpace.Has (x : AddrSpace) (f : FileId) : Prop :=
  f = x.exec_file ∨ ∃ mf ∈ x.mapped_files, mf.file = f

section Files

variable {T : Threads} {me b : SpaceId} {m m' : Memory} {p p' : Pc} {o : Option Pc} {f : FileId}

theorem AddrSpace.has_of_find {x : AddrSpace} {addr : Nat} (h : x.findMappedFile addr = some f) :
    ∃ mf ∈ x.mapped_files, mf.file = f := by
  obtain ⟨mf, hmf, hf⟩ := Option.map_eq_some_iff.mp h
  exact ⟨mf, List.mem_of_find?_eq_some hmf, hf⟩

omit [VmConfig] in
theorem has_of_shape (h : m'.shape = m.shape) : (m'.spaces b).Has f ↔ (m.spaces b).Has f := by
  obtain ⟨hfiles, hexec⟩ := Prod.mk.inj (congrArg Prod.snd (congrFun h b))
  unfold AddrSpace.Has
  dsimp only [Memory.shape] at hfiles hexec
  rw [hfiles, hexec]

theorem load_file {q : Fault} (hf : (Vm.load me m q).file = some f) : (m.spaces me).Has f := by
  unfold Vm.load at hf
  dsimp only at hf
  split at hf
  · rename_i f' hfound
    obtain rfl := Option.some.inj hf
    exact Or.inr (AddrSpace.has_of_find hfound)
  · split at hf
    · cases hf
    · split at hf
      · cases hf
      · exact Or.inl (Option.some.inj hf).symm

theorem evict_file {q : Fault} {x : Victim} (hf : (Vm.evict me m q x).2.file = some f) :
    (m.spaces me).Has f := by
  have hout : ∀ n fresh, (swapOut me m q x n fresh).2.file = none := by
    intro n fresh
    rcases swapOut_place me m q x n fresh with he | ⟨sector, ad, he⟩
    · rw [he]
      rfl
    · rw [he]
      rfl
  unfold Vm.evict at hf
  dsimp only at hf
  split at hf
  · rename_i f' hfound
    split at hf
    · obtain rfl := Option.some.inj hf
      exact Or.inr (AddrSpace.has_of_find hfound)
    · cases hf
  · split at hf
    · split at hf
      · exact nomatch (hout _ _).symm.trans hf
      · cases hf
    · exact nomatch (hout _ _).symm.trans hf

/-- A thread finds the file that it will work with in the table of its address space. -/
theorem next_file {t : ThreadId} (hr : Next (T.process t) m p m' o) (hp' : p' ∈ o)
    (hf : p'.file = some f) (hold : p.file = some f → (m.spaces (p.space T t)).Has f) :
    (m.spaces (p'.space T t)).Has f := by
  cases hr with
  | @load q hio hvalid =>
      obtain rfl := Option.some.inj hp'
      have hhas := load_file hf
      rw [has_of_shape modifyEntry_shape] at hhas
      have hd := load_destroys (T.process t) (m.modifyEntry (T.process t) q.vpn .setBitIo) q
      unfold Pc.space
      rwa [hd]
  | @evict q x hdead hio =>
      obtain rfl := Option.some.inj hp'
      have hhas := evict_file hf
      rw [has_of_shape modifyEntry_shape] at hhas
      have hd := (evict_list (T.process t) (m.modifyEntry x.space x.vpn .setBitIo) q x).2.1
      unfold Pc.space
      rwa [hd]
  | destroyFile hlt hvalid hfound hM =>
      obtain rfl := Option.some.inj hp'
      obtain rfl := Option.some.inj hf
      exact Or.inr (AddrSpace.has_of_find hfound)
  | present | finish | delete => exact nomatch hp'
  | _ =>
      obtain rfl := Option.some.inj hp'
      cases hf

end Files

/-! ## The files that are not deleted -/

/-- No address of a deleted file is left where it can be used: in `g_object_ids`, in the
    tables of the processes that have not ended, and with the threads.  The files with numbers
    below `n₀` are executable files. -/
structure Kept (T : Threads) (n₀ : FileId) (s : OpenFiles) : Prop where
  lives : Lives T s.system
  exec : ∀ b, (s.system.memory.spaces b).exec_file < n₀
  first : n₀ ≤ s.numFiles
  ids : ∀ fid f, s.objectIds.ids fid = some f →
    n₀ ≤ f ∧ f < s.numFiles ∧ s.deleted f = false
  one : ∀ fid fid' f, s.objectIds.ids fid = some f → s.objectIds.ids fid' = some f → fid = fid'
  closing : ∀ t fid f, s.closing t = some (fid, f) →
    n₀ ≤ f ∧ f < s.numFiles ∧ ∀ fid', s.objectIds.ids fid' = some f → fid' = fid
  mapped : ∀ b, s.system.memory.status b ≠ .dead →
    ∀ mf ∈ (s.system.memory.spaces b).mapped_files,
      mf.file < s.numFiles ∧ s.deleted mf.file = false
  deleted : ∀ f, s.deleted f = true → n₀ ≤ f ∧ f < s.numFiles
  works : ∀ t p f, s.system.pc t = some p → p.file = some f →
    (s.system.memory.spaces (p.space T t)).Has f

section Kept

variable {T : Threads} {maxNumPages : Nat} {n₀ : FileId} {s s' : OpenFiles}

omit [VmConfig] in
/-- The address space that a thread works on has not ended. -/
theorem Lives.notDead {s : System} (h : Lives T s) {t : ThreadId} {p : Pc}
    (hp : s.pc t = some p) : s.memory.status (p.space T t) ≠ .dead := by
  unfold Pc.space
  cases hd : p.destroys with
  | none =>
      dsimp only
      rw [h.live t p hp hd]
      exact nofun
  | some y =>
      obtain ⟨b, i⟩ := y
      obtain ⟨j, hst⟩ := h.dying t p b i hp hd
      dsimp only
      rw [hst]
      exact nofun

omit [VmConfig] in
/-- The file that a thread works with has not been deleted. -/
theorem Kept.notDeleted (h : Kept T n₀ s) {t : ThreadId} {p : Pc} {f : FileId}
    (hp : s.system.pc t = some p) (hf : p.file = some f) : s.deleted f = false := by
  rcases h.works t p f hp hf with rfl | ⟨mf, hmf, rfl⟩
  · rw [Bool.eq_false_iff]
    intro hdel
    exact absurd (h.exec _) (Nat.not_lt.mpr (h.deleted _ hdel).1)
  · exact (h.mapped _ (h.lives.notDead hp) mf hmf).2

/-- A step of virtual memory. -/
theorem Kept.move (h : Kept T n₀ s) {x : System} {mv : Move} (hs : Step T s.system mv x) :
    Kept T n₀ { s with system := x } := by
  have hshape : x.memory.shape = s.system.memory.shape := by
    cases hs with
    | switch | fault | destroy => rfl
    | load hu hm' =>
        obtain ⟨a, ht, -, -⟩ := readMem_cases hm'
        obtain ⟨rfl, -, -, -⟩ := translate_cases ht
        exact modifyEntry_shape
    | store hu hm' =>
        obtain ⟨m₁, a, ht, -, rfl⟩ := writeMem_cases hm'
        obtain ⟨rfl, -, -, -⟩ := translate_cases ht
        exact modifyEntry_shape (m := s.system.memory)
    | advance hp hr => exact next_shape hr
  have hfiles : ∀ b, (x.memory.spaces b).mapped_files = (s.system.memory.spaces b).mapped_files :=
    mapped_files_of_shape hshape
  have hexec : ∀ b, (x.memory.spaces b).exec_file = (s.system.memory.spaces b).exec_file :=
    exec_file_of_shape hshape
  have hworks : ∀ t p f, x.pc t = some p → p.file = some f →
      (s.system.memory.spaces (p.space T t)).Has f := by
    cases hs with
    | switch | load | store => exact h.works
    | fault hu hvalid hallowed =>
        intro t p f hp hf
        dsimp only at hp
        rw [Function.update_apply] at hp
        split at hp
        · obtain rfl := Option.some.inj hp
          cases hf
        · exact h.works t p f hp hf
    | destroy hmem hnone hlive hended =>
        intro t p f hp hf
        dsimp only at hp
        rw [Function.update_apply] at hp
        split at hp
        · obtain rfl := Option.some.inj hp
          cases hf
        · exact h.works t p f hp hf
    | advance hp hr =>
        intro t p' f hp' hf
        dsimp only at hp'
        rw [Function.update_apply] at hp'
        split at hp'
        · rename_i ht
          rw [ht]
          exact next_file hr hp' hf (h.works _ _ f hp)
        · exact h.works t p' f hp' hf
  exact {
    lives := h.lives.step hs
    exec := fun b => (hexec b).trans_lt (h.exec b)
    first := h.first
    ids := h.ids
    one := h.one
    closing := h.closing
    mapped := by
      intro b hd mf hmf
      rw [hfiles] at hmf
      exact h.mapped b (fun hdead => hd (h.lives.dead hs hdead)) mf hmf
    deleted := h.deleted
    works := fun t p f hp hf => (has_of_shape hshape).mpr (hworks t p f hp hf) }

/-- `Mmap` puts a file in the table that is in `g_object_ids`. -/
theorem Kept.mmap (h : Kept T n₀ s) {fid : Int} {f : FileId} {size : Nat} {x : System}
    (hf : s.objectIds.ids fid = some f) (hx : s.system.mmap T maxNumPages f size = some x) :
    Kept T n₀ { s with system := x } := by
  unfold System.mmap at hx
  split at hx
  · obtain ⟨⟨m', addr⟩, hm', rfl⟩ := Option.map_eq_some_iff.mp hx
    obtain ⟨P, n, hm, -, -⟩ := mmap_cases hm'
    have hstatus : m'.status = s.system.memory.status := by rw [hm.rest]
    -- What is in a table is there already, or it is the file.
    have hfiles : ∀ b, ∀ mf ∈ (m'.spaces b).mapped_files,
        mf ∈ (s.system.memory.spaces b).mapped_files ∨ mf.file = f := by
      intro b mf hmf
      rw [hm.files] at hmf
      split at hmf
      · rename_i he
        rcases List.mem_append.mp hmf with hmf | hmf
        · exact Or.inl (he ▸ hmf)
        · exact Or.inr (congrArg MappedFile.file (List.mem_singleton.mp hmf))
      · exact Or.inl hmf
    have hkeep : ∀ b, ∀ mf ∈ (s.system.memory.spaces b).mapped_files,
        mf ∈ (m'.spaces b).mapped_files := by
      intro b mf hmf
      rw [hm.files]
      split
      · rename_i he
        exact List.mem_append_left _ (he ▸ hmf)
      · exact hmf
    exact {
      lives := by
        refine ⟨h.lives.places, fun t p hp hd => ?_, fun t p b i hp hd => ?_, h.lives.one⟩
        · exact (congrFun hstatus _).trans (h.lives.live t p hp hd)
        · rw [hstatus]
          exact h.lives.dying t p b i hp hd
      exec := fun b => (hm.exec_file b).trans_lt (h.exec b)
      first := h.first
      ids := h.ids
      one := h.one
      closing := h.closing
      mapped := by
        intro b hd mf hmf
        dsimp only at hd
        rw [hstatus] at hd
        rcases hfiles b mf hmf with hmf | rfl
        · exact h.mapped b hd mf hmf
        · exact (h.ids fid _ hf).2
      deleted := h.deleted
      works := by
        intro t p f' hp hf'
        rcases h.works t p f' hp hf' with he | ⟨mf, hmf, he⟩
        · exact Or.inl (he.trans (hm.exec_file _).symm)
        · exact Or.inr ⟨mf, hkeep _ mf hmf, he⟩ }
  · cases hx

theorem Kept.step (h : Kept T n₀ s) {move : FileMove} (hs : s.step T maxNumPages move = some s')
    (hclose : ¬ ClosesMapped s move) : Kept T n₀ s' := by
  cases move with
  | move mv =>
      simp only [OpenFiles.step] at hs
      split at hs
      · obtain ⟨x, hx, rfl⟩ := Option.map_eq_some_iff.mp hs
        exact h.move (step_cases hx)
      · cases hs
  | openFile file =>
      simp only [OpenFiles.step] at hs
      split at hs
      · cases file with
        | none =>
            obtain rfl := Option.some.inj hs
            exact h
        | some file =>
            obtain rfl := Option.some.inj hs
            -- The number of the new file is not used yet.
            have hfirst := h.first
            have hids : ∀ fid f, (s.objectIds.addObject s.numFiles).ids fid = some f →
                (fid = s.objectIds.last_id ∧ f = s.numFiles) ∨
                  (fid ≠ s.objectIds.last_id ∧ s.objectIds.ids fid = some f) := by
              intro fid f hf
              unfold ObjId.addObject at hf
              dsimp only at hf
              rw [Function.update_apply] at hf
              split at hf
              · rename_i he
                exact Or.inl ⟨he, (Option.some.inj hf).symm⟩
              · rename_i he
                exact Or.inr ⟨he, hf⟩
            exact {
              lives := ⟨h.lives.places, h.lives.live, h.lives.dying, h.lives.one⟩
              exec := h.exec
              first := Nat.le_succ_of_le hfirst
              ids := by
                intro fid f hf
                dsimp only
                rcases hids fid f hf with ⟨-, rfl⟩ | ⟨-, hf⟩
                · refine ⟨hfirst, Nat.lt_succ_self _, Bool.eq_false_iff.mpr fun hdel => ?_⟩
                  exact lt_irrefl _ (h.deleted _ hdel).2
                · obtain ⟨h1, h2, h3⟩ := h.ids fid f hf
                  exact ⟨h1, Nat.lt_succ_of_lt h2, h3⟩
              one := by
                intro fid fid' f hf hf'
                rcases hids fid f hf with ⟨rfl, rfl⟩ | ⟨-, hf⟩
                · rcases hids fid' _ hf' with ⟨rfl, -⟩ | ⟨-, hf'⟩
                  · rfl
                  · exact absurd (h.ids _ _ hf').2.1 (lt_irrefl _)
                · rcases hids fid' f hf' with ⟨-, rfl⟩ | ⟨-, hf'⟩
                  · exact absurd (h.ids _ _ hf).2.1 (lt_irrefl _)
                  · exact h.one fid fid' f hf hf'
              closing := by
                intro t fid f hc
                obtain ⟨h1, h2, h3⟩ := h.closing t fid f hc
                refine ⟨h1, Nat.lt_succ_of_lt h2, fun fid' hf' => ?_⟩
                rcases hids fid' f hf' with ⟨-, rfl⟩ | ⟨-, hf'⟩
                · exact absurd h2 (lt_irrefl _)
                · exact h3 fid' hf'
              mapped := by
                intro b hd mf hmf
                obtain ⟨h1, h2⟩ := h.mapped b hd mf hmf
                exact ⟨Nat.lt_succ_of_lt h1, h2⟩
              deleted := by
                intro f hf
                obtain ⟨h1, h2⟩ := h.deleted f hf
                exact ⟨h1, Nat.lt_succ_of_lt h2⟩
              works := h.works }
      · cases hs
  | mmap fid size =>
      simp only [OpenFiles.step] at hs
      split at hs
      · split at hs
        · rename_i f hf
          split at hs
          · obtain ⟨x, hx, rfl⟩ := Option.map_eq_some_iff.mp hs
            exact h.mmap hf hx
          · obtain rfl := Option.some.inj hs
            exact h
        · obtain rfl := Option.some.inj hs
          exact h
      · cases hs
  | close fid =>
      simp only [OpenFiles.step] at hs
      split at hs
      · split at hs
        · rename_i f hf
          obtain rfl := Option.some.inj hs
          refine ⟨h.lives, h.exec, h.first, h.ids, h.one, fun t fid' f' hc => ?_, h.mapped,
            h.deleted, h.works⟩
          dsimp only at hc
          rw [Function.update_apply] at hc
          split at hc
          · obtain ⟨rfl, rfl⟩ := Prod.mk.inj (Option.some.inj hc)
            obtain ⟨h1, h2, -⟩ := h.ids fid f hf
            exact ⟨h1, h2, fun fid' hf' => h.one fid' fid f hf' hf⟩
          · exact h.closing t fid' f' hc
        · obtain rfl := Option.some.inj hs
          exact h
      · cases hs
  | closed =>
      obtain ⟨⟨fid, f⟩, hc, rfl⟩ := Option.map_eq_some_iff.mp hs
      obtain ⟨hlow, hhigh, hown⟩ := h.closing _ fid f hc
      have hids : ∀ fid' f', (s.objectIds.removeObject fid).ids fid' = some f' →
          fid' ≠ fid ∧ s.objectIds.ids fid' = some f' := by
        intro fid' f' hf'
        unfold ObjId.removeObject at hf'
        dsimp only at hf'
        rw [Function.update_apply] at hf'
        split at hf'
        · cases hf'
        · rename_i he
          exact ⟨he, hf'⟩
      exact {
        lives := h.lives
        exec := h.exec
        first := h.first
        ids := by
          intro fid' f' hf'
          obtain ⟨hne, hold⟩ := hids fid' f' hf'
          obtain ⟨h1, h2, h3⟩ := h.ids fid' f' hold
          refine ⟨h1, h2, ?_⟩
          dsimp only
          rw [Function.update_of_ne]
          · exact h3
          · -- The identifier of the file is not in the table any more.
            rintro rfl
            exact hne (hown fid' hold)
        one := by
          intro fid' fid'' f' hf' hf''
          exact h.one fid' fid'' f' (hids _ _ hf').2 (hids _ _ hf'').2
        closing := by
          intro t fid' f' hc'
          dsimp only at hc'
          rw [Function.update_apply] at hc'
          split at hc'
          · cases hc'
          · obtain ⟨h1, h2, h3⟩ := h.closing t fid' f' hc'
            exact ⟨h1, h2, fun fid'' hf' => h3 fid'' (hids _ _ hf').2⟩
        mapped := by
          intro b hd mf hmf
          obtain ⟨h1, h2⟩ := h.mapped b hd mf hmf
          refine ⟨h1, ?_⟩
          dsimp only
          rw [Function.update_of_ne]
          · exact h2
          · exact fun he => hclose ⟨rfl, fid, f, hc, b, hd, mf, hmf, he⟩
        deleted := by
          intro f' hf'
          dsimp only at hf'
          rw [Function.update_apply] at hf'
          split at hf'
          · rename_i he
            rw [he]
            exact ⟨hlow, hhigh⟩
          · exact h.deleted f' hf'
        works := h.works }

/-- The state after the start: no file is open or mapped. -/
structure Started (s : OpenFiles) : Prop where
  booted : Booted s.system
  files : ∀ b, (s.system.memory.spaces b).mapped_files = []
  ids : ∀ fid, s.objectIds.ids fid = none
  closing : ∀ t, s.closing t = none
  deleted : ∀ f, s.deleted f = false
  exec : ∀ b, (s.system.memory.spaces b).exec_file < s.numFiles

theorem Started.kept (h : Started s) : Kept T s.numFiles s where
  lives := by
    refine ⟨fun t p hp => ?_, fun t p hp => ?_, fun t p b i hp => ?_, fun t t' b hb => ?_⟩
    · exact nomatch (h.booted.idle t).symm.trans hp
    · exact nomatch (h.booted.idle t).symm.trans hp
    · exact nomatch (h.booted.idle t).symm.trans hp
    · obtain ⟨p, hp, -⟩ := hb
      exact nomatch (h.booted.idle t).symm.trans hp
  exec := h.exec
  first := le_rfl
  ids fid f hf := nomatch (h.ids fid).symm.trans hf
  one fid fid' f hf := nomatch (h.ids fid).symm.trans hf
  closing t fid f hc := nomatch (h.closing t).symm.trans hc
  mapped b _ mf hmf := by
    rw [h.files] at hmf
    cases hmf
  deleted f hf := nomatch (h.deleted f).symm.trans hf
  works t p f hp := nomatch (h.booted.idle t).symm.trans hp

theorem kept_of_run {s₀ : OpenFiles} {tr : List (OpenFiles × FileMove)} (h₀ : Started s₀)
    (hr : Run (OpenFiles.step T · maxNumPages) s₀ tr s)
    (hclose : ∀ x ∈ tr, ¬ ClosesMapped x.1 x.2) : Kept T s₀.numFiles s :=
  hr.invariant_of_steps (I := fun _ s => Kept T s₀.numFiles s)
    (C := fun s move => ¬ ClosesMapped s move) h₀.kept
    (fun _ _ _ _ h hclose hs => h.step hs hclose) hclose

/-- The tables of the mapped files are free of deleted files in every state of a run if and
    only if no file is deleted that is mapped. -/
theorem tables_kept_iff {s₀ : OpenFiles} {tr : List (OpenFiles × FileMove)} (h₀ : Started s₀)
    (hr : Run (OpenFiles.step T · maxNumPages) s₀ tr s) :
    Run.Always (OpenFiles.step T · maxNumPages) s₀ (fun _ s => ∀ b,
      s.system.memory.status b ≠ .dead → ∀ mf ∈ (s.system.memory.spaces b).mapped_files,
        s.deleted mf.file = false) tr ↔ ∀ x ∈ tr, ¬ ClosesMapped x.1 x.2 := by
  induction hr with
  | nil =>
    rw [Run.always_nil]
    refine ⟨fun _ => nofun, fun _ b _ mf hmf => ?_⟩
    rw [h₀.files] at hmf
    cases hmf
  | @snoc tr s s' a hr hs ih =>
    rw [Run.always_snoc hr hs, ih, List.forall_mem_append, List.forall_mem_singleton]
    refine and_congr_right fun hall => ⟨fun hkept hclose => ?_, fun hclose => ?_⟩
    · -- The file is in the table, and has been deleted.
      obtain ⟨rfl, fid, f, hc, b, hd, mf, hmf, rfl⟩ := hclose
      obtain ⟨r, hr', rfl⟩ := Option.map_eq_some_iff.mp hs
      obtain rfl := Option.some.inj (hc.symm.trans hr')
      have hdel := hkept b hd mf hmf
      dsimp only at hdel
      rw [Function.update_self] at hdel
      cases hdel
    · have hkept := (kept_of_run h₀ hr hall).step hs hclose
      exact fun b hd mf hmf => (hkept.mapped b hd mf hmf).2

end Kept

/-! ## A file that is closed while it is mapped -/

/-- One thread; the file 0 is its executable file. -/
def oneOpener : OpenFiles :=
  ⟨⟨oneProcess 10, 0, fun _ => none⟩, .create, fun _ => none, fun _ => false, 1⟩

omit [VmConfig] in
theorem started_oneOpener : @Started VmConfig.two oneOpener :=
  let _ := VmConfig.two
  ⟨booted_oneProcess 10, fun _ => rfl, fun _ => rfl, fun _ => rfl, fun _ => rfl,
    fun _ => Nat.one_pos⟩

/-- The process opens a file, maps it, and stores a byte. -/
def openMapStore : List FileMove :=
  .openFile (some ⟨fun i => BitVec.ofNat 8 i, 10, 256⟩) :: .mmap 3 10 ::
    (loads 1 5 ++ [Move.store 128 1 9]).map .move

/-- The process ends. -/
def exits : List FileMove := (Move.destroy 0 :: goOn 3).map .move

/-- The step writes a file that is mapped, and that has been deleted or not. -/
def writesAt (deleted : Bool) (x : OpenFiles × FileMove) : Bool :=
  let _ := VmConfig.two
  match x.2, x.1.system.pc x.1.system.current with
  | .move .advance, some (.destroyWrite b i f _ _) =>
      x.1.deleted f == deleted &&
        (x.1.system.memory.spaces b).findMappedFile (i * PageSize) == some f
  | _, _ => false

omit [VmConfig] in
theorem usesMapped_of_writesAt {deleted : Bool} {x : OpenFiles × FileMove}
    (h : writesAt deleted x = true) :
    ∃ f, @UsesMapped VmConfig.two x.1 x.2 f ∧ x.1.deleted f = deleted := by
  unfold writesAt at h
  dsimp only at h
  split at h
  · rename_i b i f ad fr hmove hp
    rw [Bool.and_eq_true, beq_iff_eq, beq_iff_eq] at h
    exact ⟨f, ⟨hmove, ⟨_, hp, rfl⟩, b, _, h.2⟩, h.1⟩
  · cases h

/-- No thread is in `Close`. -/
def noneCloses (x : OpenFiles × FileMove) : Bool := (x.1.closing x.1.system.current).isNone

end Vm
end Nachos
