import Mathlib.Data.UInt

/-! # Kernel configuration

The constants of `config.h` and `types.h` that the modelled code reads. -/

namespace Tnix

def NPROC : Nat := 32

def BSIZE : Nat := 1024

def NDIRECT : Nat := 12

def NINDIRECT : Nat := 3

/-- Block numbers in one index block, `BSIZE / sizeof(u32)`. -/
def IDX_CNT_PER_INDIRECT_BLCOK : Nat := BSIZE / 4

def BIT_CNT_PER_BLOCK : Nat := BSIZE * 8

def NIOBUF : Nat := 16

def NINODE : Nat := 50

def DLENGTH : Nat := 28

def NFILE : Nat := 16

def NDEV : Nat := 3

def NFILE_SLOT : Nat := 3

def PGSIZE : Nat := 4096

def MPGSIZE : Nat := PGSIZE <<< 9

def GPGSIZE : Nat := PGSIZE <<< 18

def VA_TOP : Nat := 0x4000000000

def TRAMPOLINE : Nat := VA_TOP - PGSIZE

def TRAPFRAME : Nat := TRAMPOLINE - PGSIZE

def USTACK : Nat := TRAPFRAME - PGSIZE

def PHY_MEMORY : Nat := 0x80000000

def PHY_SIZE : Nat := 0x20000000

def PHY_TOP : Nat := PHY_MEMORY + PHY_SIZE

def KBASE : Nat := PHY_MEMORY

def CLINT : Nat := 0x2000000

def CLINT_SIZE : Nat := 0x10000

def PLIC : Nat := 0xC000000

def PLIC_SIZE : Nat := 0x600000

def UART0 : Nat := 0x10000000

def UART0_SIZE : Nat := PGSIZE

def VIRIO : Nat := 0x10001000

def VIRIO_SIZE : Nat := PGSIZE

def POWER : Nat := 0x100000

def POWER_SIZE : Nat := PGSIZE

def NPAGE : Nat := PHY_SIZE / PGSIZE

/-- `align_up(x, align)` for a power of two. -/
def alignUp (x align : Nat) : Nat := (x + align - 1) / align * align

theorem alignUp_mod (x align : Nat) : alignUp x align % align = 0 := Nat.mul_mod_left _ _

theorem le_alignUp (x : Nat) {align : Nat} (positive : 0 < align) : x ≤ alignUp x align := by
  have split := Nat.div_add_mod (x + align - 1) align
  have remainder := Nat.mod_lt (x + align - 1) positive
  rw [alignUp, Nat.mul_comm]
  omega

theorem alignUp_le {x align bound : Nat} (positive : 0 < align) (below : x ≤ bound)
    (aligned : bound % align = 0) : alignUp x align ≤ bound := by
  have whole : bound / align * align = bound := Nat.div_mul_cancel (Nat.dvd_of_mod_eq_zero aligned)
  calc alignUp x align ≤ bound / align * align := by
        refine Nat.mul_le_mul_right align ?_
        rw [← Nat.lt_succ_iff, Nat.div_lt_iff_lt_mul positive, Nat.succ_mul, whole]
        omega
    _ = bound := whole

/-- File objects in a page, `PGSIZE / sizeof(struct chunk_file_slot)`. -/
def FILE_CNT_PER_PAGE : Nat := PGSIZE / 64

def FILE_CNT : Nat := NFILE_SLOT * FILE_CNT_PER_PAGE

def NPIPE : Nat := 8

def MAX_PATH_LENGTH : Nat := 128

/-- What `argstr` copies of the string that it finds; `none` is `false`. -/
def argstr (string : List UInt8) : Option (List UInt8) :=
  if string.length + 1 > MAX_PATH_LENGTH then none else some string

def ROOTINUM : Nat := 0

instance : NeZero NPROC := ⟨by decide⟩

instance : NeZero NIOBUF := ⟨by decide⟩

instance : NeZero NINODE := ⟨by decide⟩

instance : NeZero FILE_CNT := ⟨by decide⟩

instance : NeZero NPIPE := ⟨by decide⟩

instance : NeZero NFILE := ⟨by decide⟩

instance neZeroTwo : @NeZero Nat Zero.ofOfNat0 2 := ⟨by decide⟩

end Tnix
