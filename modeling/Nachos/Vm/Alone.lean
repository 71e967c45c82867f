/-
  Nachos.Vm.Alone

  A routine of the memory management that is followed by itself, with no step of another
  thread between its own.  A page fault ends with the page in a frame; its bytes are those
  that the handler has read.
-/

import Nachos.Vm.FrameSafety
import Nachos.Vm.Contents

namespace Nachos
namespace Vm

open Transition Words StateTransition

variable [VmConfig]

/-- A thread of `me` goes on, and no other. -/
def alone (me : SpaceId) (x : Memory × Option Pc) : Option (Memory × Option Pc) :=
  x.2.bind (next me x.1)

section

variable {m : Memory} {me : SpaceId}

theorem alone_of_next {p : Pc} {r : Memory × Option Pc} (h : next me m p = some r) :
    alone me (m, some p) = some r := h

omit [VmConfig] in
theorem mapped_files_modifyEntry {b : SpaceId} {v : Nat} {f : PageTableEntry → PageTableEntry}
    (b' : SpaceId) : ((m.modifyEntry b v f).spaces b').mapped_files =
      (m.spaces b').mapped_files := (Memory.modifyEntry_space _ b').2.1

theorem findMappedFile_congr {s s' : AddrSpace} (h : s'.mapped_files = s.mapped_files)
    (addr : Nat) : s'.findMappedFile addr = s.findMappedFile addr := by
  unfold AddrSpace.findMappedFile
  rw [h]

end

/-! ## A page fault -/

section Fault

variable {m m₁ m' m₃ : Memory} {me b : SpaceId} {v : Nat} {q : Fault} {buffer data : Page}

/-- Once the page is in the buffer of the handler, it comes into the frame. -/
theorem next_buffered {p : Pc} {o : Option Pc} (hr : Next me m p m' o)
    (hp : p.buffered = some q) :
    (∃ p', o = some p' ∧ p'.buffered = some q) ∨
      (o = none ∧ (m'.entry me q.vpn).valid = true ∧
        ∀ i < PageSize, m'.frame (m'.entry me q.vpn).physicalPage i = q.buffer i) := by
  cases hr with
  | @finish q' f hlocked hfree =>
    obtain rfl := Option.some.inj hp
    refine Or.inr ⟨rfl, ?_⟩
    rw [Memory.modifyFrame_entry, Memory.entry_modifyEntry_self]
    refine ⟨rfl, fun i hi => ?_⟩
    exact (frame_fill hi).trans (if_pos rfl)
  | @evict q' x hd hio =>
    obtain rfl := Option.some.inj hp
    refine Or.inl ⟨_, rfl, ?_⟩
    have hcases := evict_cases me (m.modifyEntry x.space x.vpn .setBitIo) q' x
    generalize Vm.evict me (m.modifyEntry x.space x.vpn .setBitIo) q' x = r at hcases
    cases hcases with
    | file => rfl
    | swap => rfl
    | on => rfl
  | _ => first
    | exact Or.inl ⟨_, rfl, hp⟩
    | cases hp

theorem frame_of_buffered {p : Pc} (hp : p.buffered = some q)
    (hr : Reaches (alone me) (m, some p) (m₃, none)) :
    (m₃.entry me q.vpn).valid = true ∧
      ∀ i < PageSize, m₃.frame (m₃.entry me q.vpn).physicalPage i = q.buffer i := by
  generalize hz : (m, some p) = z at hr
  induction hr using Relation.ReflTransGen.head_induction_on generalizing m p with
  | refl => exact nomatch hz
  | head hstep hrest ih =>
    subst hz
    rename_i z'
    obtain ⟨m', o⟩ := z'
    rcases next_buffered (next_cases hstep) hp with ⟨p', rfl, hp'⟩ | ⟨rfl, hdone⟩
    · exact ih hp' rfl
    · obtain rfl := (Prod.mk.inj ((reaches_of_none rfl).mp hrest)).1
      exact hdone

theorem next_faultIo (hio : (m.entry b v).io = false) (hvalid : (m.entry b v).valid = false)
    {p : Pc} (hload : load b (m.modifyEntry b v .setBitIo) ⟨v, buffer⟩ = p) :
    next b m (.faultIo ⟨v, buffer⟩) = some (m.modifyEntry b v .setBitIo, some p) := by
  simp only [next, hio, hvalid]
  exact congrArg (fun p => some (_, some p)) hload

/-- The page comes from a file. -/
theorem fault_readFile (hio : (m.entry b v).io = false) (hvalid : (m.entry b v).valid = false)
    {f : FileId} {ad : Int}
    (hload : load b (m.modifyEntry b v .setBitIo) ⟨v, buffer⟩ = .readFile ⟨v, buffer⟩ f ad) :
    Reaches (alone b) (m, some (.faultIo ⟨v, buffer⟩)) (m', some (.map q)) ↔
      0 ≤ ad ∧ Reaches (alone b) (m.modifyEntry b v .setBitIo,
        some (.map ⟨v, (m.files f).readAt buffer ad.toNat⟩)) (m', some (.map q)) := by
  rw [reaches_of_step (alone_of_next (next_faultIo hio hvalid hload)) (by simp)]
  by_cases had : ad < 0
  · -- There is no such position in the file.
    have hread : next b (m.modifyEntry b v .setBitIo) (.readFile ⟨v, buffer⟩ f ad) = none :=
      if_pos had
    rw [reaches_of_none hread]
    simp
    omega
  · have hread : next b (m.modifyEntry b v .setBitIo) (.readFile ⟨v, buffer⟩ f ad) =
        some (m.modifyEntry b v .setBitIo,
          some (.readDone ⟨v, (m.files f).readAt buffer ad.toNat⟩)) := if_neg had
    have hdone : next b (m.modifyEntry b v .setBitIo)
        (.readDone ⟨v, (m.files f).readAt buffer ad.toNat⟩) =
        some (m.modifyEntry b v .setBitIo,
          some (.map ⟨v, (m.files f).readAt buffer ad.toNat⟩)) := rfl
    rw [reaches_of_step (alone_of_next hread) (by simp),
      reaches_of_step (alone_of_next hdone) (by simp), and_iff_right (by omega)]

/-- It is the file that the owner of the page finds. -/
theorem load_mapped {f : FileId} (hf : (m.spaces b).findMappedFile (v * PageSize) = some f) :
    load b (m.modifyEntry b v .setBitIo) ⟨v, buffer⟩ =
      .readFile ⟨v, buffer⟩ f (m.entry b v).addrDisk := by
  unfold load
  dsimp only
  rw [findMappedFile_congr (mapped_files_modifyEntry b), hf, Memory.entry_modifyEntry_self]
  rfl

/-- The page is not mapped, and has not been in the swap area. -/
theorem load_unmapped (hf : (m.spaces b).findMappedFile (v * PageSize) = none)
    (hsw : (m.entry b v).swap = false) :
    load b (m.modifyEntry b v .setBitIo) ⟨v, buffer⟩ =
      if (m.entry b v).addrDisk = -1 then .map ⟨v, fun _ => 0⟩
      else .readFile ⟨v, buffer⟩ (m.spaces b).exec_file (m.entry b v).addrDisk := by
  have hsw' : (m.entry b v).setBitIo.swap = false := hsw
  have hexec : ((m.modifyEntry b v .setBitIo).spaces b).exec_file = (m.spaces b).exec_file :=
    (Memory.modifyEntry_space _ b).2.2
  unfold load
  dsimp only
  rw [findMappedFile_congr (mapped_files_modifyEntry b), hf, Memory.entry_modifyEntry_self, hexec]
  simp only [hsw', Bool.false_eq_true, if_false]
  rfl

theorem fault_file (hio : (m.entry b v).io = false) (hvalid : (m.entry b v).valid = false)
    {f : FileId} (hf : (m.spaces b).findMappedFile (v * PageSize) = some f) :
    Reaches (alone b) (m, some (.faultIo ⟨v, buffer⟩)) (m', some (.map q)) ↔
      0 ≤ (m.entry b v).addrDisk ∧
        Reaches (alone b) (m.modifyEntry b v .setBitIo,
          some (.map ⟨v, (m.files f).readAt buffer (m.entry b v).addrDisk.toNat⟩))
          (m', some (.map q)) := fault_readFile hio hvalid (load_mapped hf)

/-- The page comes from nowhere. -/
theorem fault_zero (hio : (m.entry b v).io = false) (hvalid : (m.entry b v).valid = false)
    (hf : (m.spaces b).findMappedFile (v * PageSize) = none) (hsw : (m.entry b v).swap = false)
    (had : (m.entry b v).addrDisk = -1) :
    Reaches (alone b) (m, some (.faultIo ⟨v, buffer⟩))
      (m.modifyEntry b v .setBitIo, some (.map ⟨v, fun _ => 0⟩)) :=
  .single (alone_of_next (next_faultIo hio hvalid ((load_unmapped hf hsw).trans (if_pos had))))

/-- The page comes from the executable file. -/
theorem fault_exec (hio : (m.entry b v).io = false) (hvalid : (m.entry b v).valid = false)
    (hf : (m.spaces b).findMappedFile (v * PageSize) = none) (hsw : (m.entry b v).swap = false)
    (had : 0 ≤ (m.entry b v).addrDisk) :
    Reaches (alone b) (m, some (.faultIo ⟨v, buffer⟩)) (m.modifyEntry b v .setBitIo,
      some (.map ⟨v, (m.files (m.spaces b).exec_file).readAt buffer
        (m.entry b v).addrDisk.toNat⟩)) := by
  have hload : load b (m.modifyEntry b v .setBitIo) ⟨v, buffer⟩ =
      .readFile ⟨v, buffer⟩ (m.spaces b).exec_file (m.entry b v).addrDisk :=
    (load_unmapped hf hsw).trans (if_neg (by omega))
  exact (fault_readFile hio hvalid hload).mpr ⟨had, Relation.ReflTransGen.refl⟩

/-- The rights of the pages stay. -/
theorem rights_of_reaches {x y : Memory × Option Pc} (h : Reaches (alone b) x y) :
    y.1.rights = x.1.rights := by
  induction h with
  | refl => rfl
  | tail _ hstep ih =>
    obtain ⟨p, -, hn⟩ := Option.bind_eq_some_iff.mp hstep
    exact (next_rights (next_cases hn)).trans ih

/-- The page comes from its sector. -/
theorem fault_sector (hio : (m.entry b v).io = false) (hvalid : (m.entry b v).valid = false)
    (hf : (m.spaces b).findMappedFile (v * PageSize) = none) (hsw : (m.entry b v).swap = true)
    (had : 0 ≤ (m.entry b v).addrDisk) (hlt : (m.entry b v).addrDisk < NUM_SECTORS) :
    Reaches (alone b) (m, some (.faultIo ⟨v, buffer⟩)) (m.modifyEntry b v .setBitIo,
      some (.map ⟨v, m.swap_disk (m.entry b v).addrDisk.toNat⟩)) := by
  have hload : load b (m.modifyEntry b v .setBitIo) ⟨v, buffer⟩ = .addrIo ⟨v, buffer⟩ := by
    have hsw' : (m.entry b v).setBitIo.swap = true := hsw
    unfold load
    dsimp only
    rw [findMappedFile_congr (mapped_files_modifyEntry b), hf, Memory.entry_modifyEntry_self]
    simp only [hsw', if_true]
  have h₁ := next_faultIo hio hvalid hload
  have h₂ : next b (m.modifyEntry b v .setBitIo) (.addrIo ⟨v, buffer⟩) =
      some (m.modifyEntry b v .setBitIo,
        some (.readSwap ⟨v, buffer⟩ (m.entry b v).addrDisk)) := by
    simp only [next]
    rw [Memory.entry_modifyEntry_self]
    exact if_neg (by show (m.entry b v).addrDisk ≠ -1; omega)
  have h₃ : next b (m.modifyEntry b v .setBitIo)
      (.readSwap ⟨v, buffer⟩ (m.entry b v).addrDisk) = some (m.modifyEntry b v .setBitIo,
        some (.readDone ⟨v, m.swap_disk (m.entry b v).addrDisk.toNat⟩)) :=
    if_neg (by omega)
  rw [reaches_of_step (alone_of_next h₁) (by simp), reaches_of_step (alone_of_next h₂) (by simp),
    reaches_of_step (alone_of_next h₃) (by simp)]
  exact Relation.ReflTransGen.single rfl

/-- There is a frame for the page. -/
theorem fault_done {p : Nat} {rest : List Nat} (hl : m.free_page_list = p :: rest)
    (hfree : (m.tpr p).free = true) :
    ∃ m₃, Reaches (alone b) (m, some (.map q)) (m₃, none) := by
  let taken := { m with free_page_list := rest }.modifyFrame p fun _ =>
    { free := false, locked := true, virtualPage := q.vpn, owner := some b }
  have h₁ : next b m (.map q) = some (taken, some (.mapped q p)) := by
    simp only [next, hl]
    exact if_pos hfree
  have htpr : taken.tpr p = ⟨false, true, q.vpn, some b⟩ := Memory.modifyFrame_tpr_self _
  have h₂ : ∃ m₃, next b taken (.mapped q p) = some (m₃, none) := by
    simp only [next]
    rw [htpr]
    exact ⟨_, if_pos ⟨rfl, by simp⟩⟩
  obtain ⟨m₃, h₂⟩ := h₂
  exact ⟨m₃, .head (alone_of_next h₁) (.single (alone_of_next h₂))⟩

end Fault

end Vm
end Nachos
