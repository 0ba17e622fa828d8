import LoadableSystemCalls.AntivirusOpen
import LoadableSystemCalls.BlacklistVerdict
import LoadableSystemCalls.Descendants

/-! # Opens by descendants of tasks on the antivirus module

The way from a call to the blacklist and back, over whole runs: the hook, the module's entry
point, check_for_virus, the scan and its verdict. -/
namespace ScannedOpens

open KernelTypes RegistrationMap SyscallHooks CallRouting TransitionRuns CStrings FueledLoops
open FileScan BlacklistPaging VirusCheck BlacklistVerdict PosixOpen AntivirusOpen Descendants

variable {W : Type*}

section
variable {env : Env} {path : Addr} {flags : Flags} {mode : Mode}
  {before after : FileSystem Path} {content : List Byte} {es : List Entry}

end

variable {p : Programs W} {env : Pid → Env} {files : W → FileSystem Path} {op : Addr}

end ScannedOpens
