import Mathlib.Data.BitVec

/-! The constants of `config.h`, `tasks_types.h`, `page.h`,
`stddef.h` and `errno.h`. -/
namespace ArtOS

abbrev maxTasks : Nat := 16
abbrev maxPrio : Nat := 31
abbrev idlePrio : Nat := 0
abbrev kernelStackSize : Nat := 8 <<< 10
abbrev bitmapSize : Nat := 128 <<< 5
abbrev mailboxSize : Nat := 32

abbrev pageBits : Nat := 12
abbrev pageSize : Nat := 1 <<< pageBits

/-- `KERNEL_SPACE`: the kernel owns the addresses below. -/
abbrev kernelSpace : Nat := 1 <<< 30

instance : NeZero maxTasks := ⟨by decide⟩

def enoent : Int := 2
def enomem : Int := 12
def eacces : Int := 13
def ebusy : Int := 16
def eexist : Int := 17
def einval : Int := 22
def enosys : Int := 88
def ecanceled : Int := 140

end ArtOS
