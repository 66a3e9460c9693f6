import Mathlib.Init

namespace OpenSBI

/-- The error codes of `sbi_error.h` and `sbi_ecall_interface.h` used here. -/
def SBI_OK : Int := 0
def SBI_EFAIL : Int := -1
def SBI_ENOTSUPP : Int := -2
def SBI_EINVAL : Int := -3
def SBI_EDENIED : Int := -4
def SBI_EINVALID_ADDR : Int := -5
def SBI_EALREADY : Int := -6
def SBI_EALREADY_STARTED : Int := -7
def SBI_EALREADY_STOPPED : Int := -8
def SBI_ENODEV : Int := -1000
def SBI_ENOSPC : Int := -1005
def SBI_ENOENT : Int := -1009

end OpenSBI
