import ArtOS.Library.Transition
import ArtOS.Memory.PageMaps

/-! `page_map` and `page_unmap` on a processor with a TLB. Between any two accesses to the
page tables the processor may load entries of present pages; which ones, and when, is
decided by an environment. -/
namespace ArtOS

/-- A processor; `time` counts the moments at which it may have loaded entries. -/
structure Mmu where
  paging : Paging
  tlb : Nat → Option PageEntry
  time : Nat

namespace Mmu

open Paging

section Model

variable (env : Nat → List Nat) (kernelEnd cr3 : Nat)

/-- An access to a page: the TLB keeps its current entry. -/
def access (s : Mmu) (vpn : Nat) : Mmu :=
  match walk s.paging.mem cr3 vpn with
  | some e => { s with tlb := Function.update s.tlb vpn (some e) }
  | none => s

/-- The accesses that happen now. -/
def accesses (s : Mmu) : Mmu := (env s.time).foldl (access cr3) { s with time := s.time + 1 }

def tlbFlushOnePage (vpn : Nat) (s : Mmu) : Mmu := { s with tlb := Function.update s.tlb vpn none }

/-- The first round of `page_map`. -/
def mapTables (bits : BitVec 12) : Nat → Nat → Mmu → Option (Mmu × Bool)
  | 0, _, s => some (s, true)
  | left + 1, vpn, s =>
      let s := accesses env cr3 s
      (s.paging.entry cr3 (self 1) vpn).bind fun e =>
        if e.Has pgPresent then mapTables bits left (vpn + 1) s
        else
          (s.paging.frames.getPages kernelEnd 1).bind fun (frames, phyaddr) =>
            if phyaddr = 0 then some ({ s with paging := { s.paging with frames := frames } }, false)
            else
              let usage := if bits &&& pgUser ≠ 0 then incr32 s.paging.usage else s.paging.usage
              let table := ⟨phyaddr >>> pageBits, bits ||| pgPresent ||| pgUser ||| pgRw⟩
              (setEntry cr3 (self 1) vpn table
                { s.paging with frames := frames, usage := usage }).bind fun paging =>
                  let s := accesses env cr3 { s with paging := paging }
                  (s.paging.clearPage cr3 (self 0 + vpn)).bind fun paging =>
                    mapTables bits left (vpn + 1) { s with paging := paging }

/-- The second round of `page_map`: the TLB is flushed before the entry is written. -/
def mapPages (bits : BitVec 12) : Nat → Nat → Nat → Mmu → Option Mmu
  | 0, _, _, s => some s
  | left + 1, vpn, frame, s =>
      let s := accesses env cr3 s
      (s.paging.entry cr3 (self 0) vpn).bind fun e =>
        let s := accesses env cr3 (if e.Has pgPresent then s.tlbFlushOnePage vpn else s)
        (s.paging.setEntry cr3 (self 0) vpn ⟨frame, bits ||| pgPresent⟩).bind fun paging =>
          mapPages bits left (vpn + 1) (frame + 1) { s with paging := paging }

def pageMap (viraddr phyaddr npages : Nat) (bits : BitVec 12) (s : Mmu) : Option (Mmu × Int) :=
  let vpn := viraddr >>> pageBits
  let first := vpn / pageMapEntries
  let last := (vpn + npages - 1) / pageMapEntries
  (mapTables env kernelEnd cr3 bits (last + 1 - first) first s).bind fun (s, complete) =>
    if complete then
      (mapPages env cr3 bits npages vpn (phyaddr >>> pageBits) s).map fun s => (s, 0)
    else some (s, -enomem)

def unmapPages : Nat → Nat → Mmu → Option Mmu
  | 0, _, s => some s
  | left + 1, vpn, s =>
      let s := accesses env cr3 s
      (s.paging.setEntry cr3 (self 0) vpn PageEntry.zero).bind fun paging =>
        unmapPages left (vpn + 1) { s with paging := paging }

def pageUnmap (viraddr npages : Nat) (s : Mmu) : Option (Mmu × Int) :=
  (unmapPages env cr3 npages (viraddr >>> pageBits) s).map fun s => (s, 0)

end Model

variable {env : Nat → List Nat} {kernelEnd cr3 : Nat} {s : Mmu}

@[simp] theorem access_paging (vpn : Nat) : (access cr3 s vpn).paging = s.paging := by
  rw [access]
  split <;> rfl

@[simp] theorem accesses_paging : (accesses env cr3 s).paging = s.paging := by
  have hFold : ∀ (l : List Nat) (t : Mmu), (l.foldl (access cr3) t).paging = t.paging := by
    intro l
    induction l with
    | nil => exact fun _ => rfl
    | cons vpn l ih => exact fun t => (ih _).trans (access_paging vpn)
  exact hFold _ _

@[simp] theorem flush_paging {c : Prop} [Decidable c] (vpn : Nat) :
    (if c then s.tlbFlushOnePage vpn else s).paging = s.paging := by
  split <;> rfl

/-- Without its TLB the processor does what the page tables say. -/
theorem mapTables_paging (env : Nat → List Nat) (bits : BitVec 12) (left vpn : Nat) :
    (mapTables env kernelEnd cr3 bits left vpn s).map (fun r => (r.1.paging, r.2)) =
      s.paging.mapTables kernelEnd cr3 bits left vpn := by
  induction left generalizing vpn s with
  | zero => rfl
  | succ left ih =>
      rw [mapTables, Paging.mapTables]
      dsimp only
      rw [accesses_paging, Option.map_bind]
      refine congrArg (Option.bind _) (funext fun e => ?_)
      dsimp only [Function.comp]
      split
      · rw [ih, accesses_paging]
      · rw [Option.map_bind]
        refine congrArg (Option.bind _) (funext fun r => ?_)
        obtain ⟨frames, phyaddr⟩ := r
        dsimp only [Function.comp]
        split
        · rfl
        · rw [Option.map_bind]
          refine congrArg (Option.bind _) (funext fun t => ?_)
          dsimp only [Function.comp]
          rw [accesses_paging, Option.map_bind]
          exact congrArg (Option.bind _) (funext fun t => ih _)

theorem mapPages_paging (env : Nat → List Nat) (bits : BitVec 12) (left vpn frame : Nat) :
    (mapPages env cr3 bits left vpn frame s).map Mmu.paging =
      s.paging.mapPages cr3 bits left vpn frame := by
  induction left generalizing vpn frame s with
  | zero => rfl
  | succ left ih =>
      rw [mapPages, Paging.mapPages]
      dsimp only
      rw [accesses_paging, entry, setEntry]
      cases hFrame : s.paging.frameAt cr3 (self 0 + vpn / pageMapEntries) with
      | none => rfl
      | some f =>
          rw [Option.map_some, Option.bind_some, accesses_paging, flush_paging, accesses_paging, setEntry,
            hFrame, Option.map_some, Option.bind_some, Option.bind_some]
          exact ih _ _

theorem pageMap_paging (viraddr phyaddr npages : Nat) (bits : BitVec 12) :
    (pageMap env kernelEnd cr3 viraddr phyaddr npages bits s).map (fun r => (r.1.paging, r.2)) =
      s.paging.pageMap kernelEnd cr3 viraddr phyaddr npages bits := by
  rw [pageMap, Paging.pageMap]
  dsimp only
  rw [← mapTables_paging env, Option.map_bind, Option.bind_map]
  refine congrArg (Option.bind _) (funext fun r => ?_)
  obtain ⟨s, complete⟩ := r
  dsimp only [Function.comp]
  cases complete with
  | false => rfl
  | true =>
      rw [if_pos rfl, if_pos rfl, ← mapPages_paging env, Option.map_map, Option.map_map]
      rfl

theorem unmapPages_paging (left vpn : Nat) :
    (unmapPages env cr3 left vpn s).map Mmu.paging = s.paging.unmapPages cr3 left vpn := by
  induction left generalizing vpn s with
  | zero => rfl
  | succ left ih =>
      rw [unmapPages, Paging.unmapPages, accesses_paging, Option.map_bind]
      exact congrArg (Option.bind _) (funext fun t => ih _)

end Mmu
end ArtOS
