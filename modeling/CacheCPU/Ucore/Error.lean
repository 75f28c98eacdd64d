import Mathlib.Data.Int.Notation

/-!
# The error codes of `libs/error.h`
-/

namespace CacheCPU

namespace Ucore

def eInval : ℤ := 3
def eNoMem : ℤ := 4
def eBusy : ℤ := 15
def eMaxOpen : ℤ := 22

end Ucore

end CacheCPU
