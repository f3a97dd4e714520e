import Tnix.Fs.BlockIndex

/-! # Reading a slice of a file

Where `blockno_of_data` locates the bytes of the file, `fread` delivers those behind the offset,
and a sequence of reads is one read. -/

namespace Tnix.Fs

open Program
variable {Task : Type} {mount : Mount Task} {f : Fin FILE_CNT} {slot : Fin NINODE}
  {content : Nat → UInt8}

def segment (content : Nat → UInt8) (start len : Nat) : List UInt8 :=
  (List.range len).map fun i => content (start + i)

theorem segment_add (content : Nat → UInt8) (start first second : Nat) :
    segment content start (first + second) =
      segment content start first ++ segment content (start + first) second := by
  simp [segment, List.range_add, Function.comp_def, Nat.add_assoc]

/-- Byte `p` of the file is byte `p % BSIZE` of the block that `blockno_of_data` returns. -/
def Mount.Located (mount : Mount Task) (slot : Fin NINODE) (content : Nat → UInt8) : Prop :=
  ∀ p < (mount.icache slot).di.fsize.toNat,
    Yields (blocknoOfData slot p) mount fun blockno _ =>
      (mount.disk blockno.toNat).u8 (p % BSIZE) = content p

theorem blocknoOfData_eq (slot : Fin NINODE) (idle : mount.held = []) {off : Nat}
    (inside : off < addressable) :
    blocknoOfData slot off mount = .ok (mount.blockAt slot (off / BSIZE), mount) := by
  rcases @blocknoOfData_yields _ mount slot idle off inside with ⟨_, _, ran, rfl, rfl⟩
  exact ran

theorem located_iff (idle : mount.held = []) : mount.Located slot content ↔
    ∀ p < (mount.icache slot).di.fsize.toNat, p < addressable ∧
      (mount.disk (mount.blockAt slot (p / BSIZE)).toNat).u8 (p % BSIZE) = content p := by
  refine forall₂_congr fun p _ => ?_
  by_cases inside : p < addressable
  · rw [yields_iff_of_ok (blocknoOfData_eq slot idle inside), and_iff_right inside]
  · refine iff_of_false ?_ fun located => inside located.1
    rintro ⟨blockno, final, ran, _⟩
    exact blocknoOfData_faults (Nat.not_lt.mp inside) blockno final ran

structure Readable (mount : Mount Task) (f : Fin FILE_CNT) (slot : Fin NINODE)
    (content : Nat → UInt8) : Prop where
  pointer : (mount.files f).obj.pointer = .inode slot
  within : (mount.files f).obj.off ≤ (mount.icache slot).di.fsize
  idle : mount.held = []
  located : mount.Located slot content

def Mount.seek (mount : Mount Task) (f : Fin FILE_CNT) (off : UInt32) : Mount Task :=
  { mount with
    files := Function.update mount.files f
      { mount.files f with obj := { (mount.files f).obj with off := off } } }

@[simp]
theorem Mount.off_seek (mount : Mount Task) (f : Fin FILE_CNT) (off : UInt32) :
    ((mount.seek f off).files f).obj.off = off := by
  simp only [seek, Function.update_self]

theorem Mount.seek_seek (mount : Mount Task) (f : Fin FILE_CNT) (first second : UInt32) :
    (mount.seek f first).seek f second = mount.seek f second := by
  simp only [seek, Function.update_self, Function.update_idem]

def Mount.available (mount : Mount Task) (f : Fin FILE_CNT) (slot : Fin NINODE)
    (bytes : Nat) : Nat :=
  min bytes ((mount.icache slot).di.fsize.toNat - (mount.files f).obj.off.toNat)

/-- A read returns, delivers the bytes behind the offset and moves the offset behind them. -/
def Delivers (mount : Mount Task) (f : Fin FILE_CNT) (slot : Fin NINODE)
    (content : Nat → UInt8) (bytes : Nat) (read : FsM Task (List UInt8)) : Prop :=
  let k := mount.available f slot bytes
  let off := (mount.files f).obj.off
  read mount = .ok (segment content off.toNat k, mount.seek f (off + UInt32.ofNat k))

/-! ## One read -/

theorem chunk_eq (idle : mount.held = []) (located : mount.Located slot content)
    {pcur len : Nat} (inBlock : len ≤ BSIZE - pcur % BSIZE)
    (inFile : pcur + len ≤ (mount.icache slot).di.fsize.toNat) :
    ((List.range len).map fun i =>
      (mount.disk (mount.blockAt slot (pcur / BSIZE)).toNat).u8 (pcur % BSIZE + i)) =
      segment content pcur len := by
  refine List.map_congr_left fun i member => ?_
  have inChunk := List.mem_range.mp member
  have sameBlock : (pcur + i) / BSIZE = pcur / BSIZE := by
    simp only [BSIZE] at inBlock ⊢
    omega
  have place : (pcur + i) % BSIZE = pcur % BSIZE + i := by
    simp only [BSIZE] at inBlock ⊢
    omega
  rw [← ((located_iff idle).mp located (pcur + i) (by omega)).2, sameBlock, place]

theorem freadFrom_eq (idle : mount.held = []) (located : mount.Located slot content)
    {fuel pcur pend : Nat} (enough : pend ≤ fuel)
    (inFile : pcur + pend ≤ (mount.icache slot).di.fsize.toNat) :
    freadFrom slot fuel pcur pend mount = .ok (segment content pcur pend, mount) := by
  induction fuel generalizing pcur pend with
  | zero =>
    obtain rfl : pend = 0 := Nat.le_zero.mp enough
    rfl
  | succ fuel induction =>
    rw [freadFrom]
    split
    case isTrue done =>
      subst done
      rfl
    case isFalse more =>
      have inside := ((located_iff idle).mp located pcur (by omega)).1
      generalize isLen : min (BSIZE - pcur % BSIZE) pend = len
      have inBlock : len ≤ BSIZE - pcur % BSIZE := isLen ▸ Nat.min_le_left _ _
      have lenLe : len ≤ pend := isLen ▸ Nat.min_le_right _ _
      have progress : 0 < len := by
        simp only [BSIZE] at isLen
        omega
      have rest := @induction (pcur + len) (pend - len) (by omega) (by omega)
      have free : (mount.blockAt slot (pcur / BSIZE)).toNat ∉ mount.held ∧
          mount.held.length < NIOBUF := by
        rw [idle]
        exact ⟨List.not_mem_nil, by decide⟩
      refine (bind_of_ok (blocknoOfData_eq slot idle inside)).trans ?_
      refine (bind_of_ok (bread_eq free)).trans ?_
      refine (bind_of_ok (brelse_head rfl)).trans ((bind_of_ok rest).trans ?_)
      have whole := segment_add content pcur len (pend - len)
      rw [Nat.add_sub_cancel' lenLe] at whole
      rw [chunk_eq idle located inBlock (by omega), whole]
      rfl

theorem delivers_fread (readable : Readable mount f slot content) (bytes : UInt32) :
    Delivers mount f slot content bytes.toNat (fread f bytes) := by
  have within := UInt32.le_iff_toNat_le.mp readable.within
  have isPend : min bytes.toNat ((mount.icache slot).di.fsize - (mount.files f).obj.off).toNat =
      mount.available f slot bytes.toNat := by
    rw [UInt32.toNat_sub_of_le _ _ readable.within, Mount.available]
  have inFile : (mount.files f).obj.off.toNat + mount.available f slot bytes.toNat ≤
      (mount.icache slot).di.fsize.toNat := by
    rw [Mount.available]
    omega
  have copied := freadFrom_eq readable.idle readable.located le_rfl inFile
  have points : fileInode (mount.files f).obj mount = .ok (slot, mount) := by
    rw [fileInode, readable.pointer]
    rfl
  rw [Delivers, fread]
  refine (bind_of_ok rfl).trans ((bind_of_ok points).trans ((bind_of_ok rfl).trans ?_))
  rw [isPend]
  refine (bind_of_ok copied).trans ((bind_of_ok rfl).trans ?_)
  rw [segment, List.length_map, List.length_range]
  rfl

/-! ## A sequence of reads -/

def freads (f : Fin FILE_CNT) : List UInt32 → FsM Task (List UInt8)
  | [] => return []
  | bytes :: sizes => do
    let delivered ← fread f bytes
    let rest ← freads f sizes
    return delivered ++ rest

section
variable (readable : Readable mount f slot content)
include readable

theorem Readable.toNat_off (bytes : Nat) :
    ((mount.files f).obj.off + UInt32.ofNat (mount.available f slot bytes)).toNat =
      (mount.files f).obj.off.toNat + mount.available f slot bytes := by
  have within := UInt32.le_iff_toNat_le.mp readable.within
  have fits := (mount.icache slot).di.fsize.toNat_lt
  rw [UInt32.toNat_add, UInt32.toNat_ofNat', Mount.available]
  omega

theorem Readable.seek (bytes : Nat) : Readable (mount.seek f ((mount.files f).obj.off +
      UInt32.ofNat (mount.available f slot bytes))) f slot content where
  pointer := by
    simp only [Mount.seek, Function.update_self]
    exact readable.pointer
  within := by
    have within := UInt32.le_iff_toNat_le.mp readable.within
    rw [Mount.off_seek, UInt32.le_iff_toNat_le, readable.toNat_off]
    simp only [Mount.available, Mount.seek]
    omega
  idle := readable.idle
  located := (located_iff (by exact readable.idle)).mpr
    ((located_iff readable.idle).mp readable.located)

theorem delivers_freads (sizes : List UInt32) :
    Delivers mount f slot content (sizes.map UInt32.toNat).sum (freads f sizes) := by
  induction sizes generalizing mount with
  | nil =>
    have same : mount.seek f ((mount.files f).obj.off + UInt32.ofNat 0) = mount := by
      simp [Mount.seek]
    simp only [Delivers, Mount.available, List.map_nil, List.sum_nil, Nat.zero_min, same]
    rfl
  | cons bytes sizes induction =>
    have rest := induction (readable.seek bytes.toNat)
    have total : mount.available f slot (bytes.toNat + (sizes.map UInt32.toNat).sum) =
        mount.available f slot bytes.toNat + Mount.available (mount.seek f
          ((mount.files f).obj.off + UInt32.ofNat (mount.available f slot bytes.toNat))) f slot
          (sizes.map UInt32.toNat).sum := by
      have moved := readable.toNat_off bytes.toNat
      simp only [Mount.available, Mount.off_seek] at moved ⊢
      simp only [Mount.seek]
      omega
    rw [Delivers, Mount.off_seek, Mount.seek_seek, readable.toNat_off] at rest
    rw [Delivers, List.map_cons, List.sum_cons, total, segment_add, freads]
    refine (bind_of_ok (delivers_fread readable bytes)).trans ((bind_of_ok rest).trans ?_)
    rw [UInt32.ofNat_add, UInt32.add_assoc]
    rfl

end

/-- Every read delivers its slice, and reads of any sizes deliver what one read of their
total does. -/
theorem reads_slice (readable : Readable mount f slot content) :
    (∀ bytes, Delivers mount f slot content bytes.toNat (fread f bytes)) ∧
      ∀ (sizes : List UInt32) (total : UInt32), total.toNat = (sizes.map UInt32.toNat).sum →
        freads f sizes mount = fread f total mount := by
  refine ⟨delivers_fread readable, ?_⟩
  intro sizes total isTotal
  have once := delivers_fread readable total
  rw [isTotal] at once
  exact (delivers_freads readable sizes).trans once.symm

def twoBlocks : Mount Unit :=
  { thirteenBlocks with
    disk := fun blockno => if blockno = 702 then (0 : Block).setU8 3 7 else 0
    icache := fun _ =>
      ⟨⟨.REGULAR, 0, 1, 1500, fun i => UInt32.ofNat (701 + i.val)⟩, some (), 1, 1⟩
    files := fun _ => ⟨⟨1, .INODE, 1, 1000, .inode 0⟩, true⟩ }

def twoBlocksContent (p : Nat) : UInt8 := if p = 1027 then 7 else 0

theorem readable_twoBlocks : Readable twoBlocks 0 0 twoBlocksContent where
  pointer := rfl
  within := by decide
  idle := rfl
  located := by
    rw [located_iff rfl]
    decide +kernel

theorem reads_twoBlocks : Delivers twoBlocks 0 0 twoBlocksContent 100 (fread 0 100) ∧
    freads 0 [20, 30, 50] twoBlocks = fread 0 100 twoBlocks :=
  ⟨(reads_slice readable_twoBlocks).1 100, (reads_slice readable_twoBlocks).2 [20, 30, 50] 100 rfl⟩

end Tnix.Fs
