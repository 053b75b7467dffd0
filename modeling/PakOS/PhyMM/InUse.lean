import Mathlib.Data.List.Induction
import PakOS.PhyMM.Bits

/-!
# The bitmap as a set of frames

`_hwa_inubm_set` puts a frame into the set that the bitmap stands for, or takes it out, and
`_hwa_inubm_get` asks whether it is in.  Different frames have different bits (`bitLoc_frame_inj`),
in pools of every size: from 2 GiB on the macros compute a signed difference that is negative, and
then use bits elsewhere in memory, but still one for each frame.
-/

namespace PakOS

open Machine

namespace PhyMM

variable {s : PhyMM}

/-- Mark frames one after the other: which, and how. -/
def setInUse (s : PhyMM) (marks : List (ℕ × ℕ)) : PhyMM :=
  marks.foldl (fun t mark => t.inubmSet (s.frame mark.1) mark.2) s

/-- Marking frames writes their bits. -/
theorem setInUse_eq (s : PhyMM) (marks : List (ℕ × ℕ)) :
    s.setInUse marks = { s with
      mem := writeBits s.mem
        (marks.map fun mark => (s.bitLoc (s.frame mark.1), decide (mark.2 ≠ 0))) } := by
  induction marks using List.reverseRecOn with
  | nil => rfl
  | append_singleton marks mark ih =>
    unfold setInUse at ih ⊢
    unfold writeBits at ih ⊢
    rw [List.foldl_append, ih, List.map_append, List.foldl_append]
    rfl

/-- Reading a frame after it, or another one, was marked. -/
theorem inubmGet_inubmSet (hspace : s.hwaMmstart + 4096 * s.hwasSsize ≤ 4294967296) {i j : ℕ}
    (hi : i < s.hwasSsize) (hj : j < s.hwasSsize) (u : ℕ) :
    (s.inubmSet (s.frame i) u).inubmGet (s.frame j) =
      if i = j then if u ≠ 0 then pgUse else pgFree else s.inubmGet (s.frame j) := by
  have hlt : ∀ i < s.hwasSsize, s.frame i < 4294967296 := by
    intro i hi
    unfold frame
    omega
  have hloc : (s.inubmSet (s.frame i) u).bitLoc (s.frame j) = s.bitLoc (s.frame j) := rfl
  have hbit : memBit (s.inubmSet (s.frame i) u).mem (s.bitLoc (s.frame j)) =
      if s.bitLoc (s.frame j) = s.bitLoc (s.frame i) then decide (u ≠ 0)
      else memBit s.mem (s.bitLoc (s.frame j)) := memBit_inubmSet (Nat.mod_lt _ (by decide))
  rw [inubmGet_eq, hloc, hbit, inubmGet_eq]
  by_cases hij : i = j
  · subst hij
    simp only [if_true, decide_eq_true_eq]
  · have hne : s.bitLoc (s.frame j) ≠ s.bitLoc (s.frame i) := fun h =>
      hij (bitLoc_frame_inj (hlt j hj) (hlt i hi) h).symm
    rw [if_neg hij, if_neg hne]

/-- **The bitmap is a set of frames.**  In a pool of any size in the address space, with any bitmap:
a frame reads as in use exactly if it was marked with a value that is not zero, marking it leaves
the other frames as they were, and different frames may be marked in any order. -/
theorem inubm_frames (hspace : s.hwaMmstart + 4096 * s.hwasSsize ≤ 4294967296) :
    (∀ i < s.hwasSsize, ∀ u, (s.inubmSet (s.frame i) u).inubmGet (s.frame i) = 1 ↔ u ≠ 0) ∧
    (∀ i < s.hwasSsize, ∀ j < s.hwasSsize, i ≠ j → ∀ u,
      (s.inubmSet (s.frame i) u).inubmGet (s.frame j) = s.inubmGet (s.frame j)) ∧
    ∀ marks marks' : List (ℕ × ℕ), (∀ mark ∈ marks, mark.1 < s.hwasSsize) →
      (marks.map Prod.fst).Nodup → marks.Perm marks' → s.setInUse marks = s.setInUse marks' := by
  refine ⟨fun i hi u => ?_, fun i hi j hj hij u => ?_, fun marks marks' hin hnd hperm => ?_⟩
  · rw [inubmGet_inubmSet hspace hi hi, if_pos rfl]
    by_cases hu : u = 0 <;> simp [hu, pgUse, pgFree]
  · rw [inubmGet_inubmSet hspace hi hj, if_neg hij]
  · rw [setInUse_eq, setInUse_eq]
    congr 1
    refine writeBits_perm _ (hperm.map _) (fun b hb => ?_) ?_
    · obtain ⟨mark, -, rfl⟩ := List.mem_map.mp hb
      exact Nat.mod_lt _ (by decide)
    · -- different frames have different bits
      rw [List.map_map]
      have hmap : marks.map (Prod.fst ∘ fun mark : ℕ × ℕ =>
          (s.bitLoc (s.frame mark.1), decide (mark.2 ≠ 0))) =
          (marks.map Prod.fst).map fun i => s.bitLoc (s.frame i) := by
        rw [List.map_map]
        rfl
      rw [hmap]
      refine hnd.map_on fun i hi j hj hij => ?_
      obtain ⟨mark, hmark, rfl⟩ := List.mem_map.mp hi
      obtain ⟨mark', hmark', rfl⟩ := List.mem_map.mp hj
      have h := hin mark hmark
      have h' := hin mark' hmark'
      refine bitLoc_frame_inj ?_ ?_ hij
      · unfold frame
        omega
      · unfold frame
        omega

/-- A pool of ten frames, none of them in use. -/
def tenFrames : PhyMM where
  mem := fun _ => 0
  hwaMmstart := 0x106000
  hwaInuBitmap := 0xc0105028
  hwasBp := 0xc0105000
  hwasSp := 0xc0105024
  hwasSsize := 10
  phymmEnd := 0xc0106000

/-- Frames 7 and 8 have their bits in different bytes. -/
theorem inubm_frames_tenFrames :
    (tenFrames.inubmSet (tenFrames.frame 7) 1).inubmGet (tenFrames.frame 7) = 1 ∧
      (tenFrames.inubmSet (tenFrames.frame 7) 1).inubmGet (tenFrames.frame 8) = 0 ∧
      tenFrames.setInUse [(7, 1), (8, 1), (6, 0)] = tenFrames.setInUse [(8, 1), (6, 0), (7, 1)] := by
  obtain ⟨hsame, hother, horder⟩ := inubm_frames (s := tenFrames) (by decide)
  refine ⟨(hsame 7 (by decide) 1).mpr (by decide), ?_, ?_⟩
  · exact (hother 7 (by decide) 8 (by decide) (by decide) 1).trans (by decide)
  · exact horder [(7, 1), (8, 1), (6, 0)] _ (by decide) (by decide) (by decide)

end PhyMM

end PakOS
