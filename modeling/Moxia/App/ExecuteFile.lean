import Moxia.App.Loader
import Moxia.Terminal.ArgVector

/-!
# Running a file (`ExecuteFile`)

`ExecuteFile` for an image that stays as it is from `LoadFile` to the end of the call. Which files
do so, with the buffer in memory, is the subject of `FileBuffer`.
-/

namespace Moxia

open Lib

namespace Mmu

/-- `FreePML4`. `resetCR3` is the frame of the kernel's own PML4. -/
def freePML4 (resetCR3 : Nat) (st : Mmu) : Option Mmu :=
  { st with cr3 := resetCR3 }.freeFrame st.cr3

/-- What `ExecuteFile` does not decide itself. -/
structure Environment where
  cmd : List UInt8
  firstArg : Option (List UInt8)
  /-- What is in the frame of the arguments. -/
  argbuf : Nat → UInt8
  /-- What is in memory when the application exits, and its exit code. It gets its arguments and its
  entry point. -/
  callApp : Terminal.ArgVector → Nat → Mmu → Option (Int × Mmu)
  resetCR3 : Nat

/-- `MakeArgVector(cmd, first_arg, argv, 32, argbuf, 4096 - 32 * 8)`. What it writes is in the
vector. -/
def makeArgs (env : Environment) (st : Mmu) : Result Terminal.ArgVector :=
  (Terminal.makeArgVector env.cmd env.firstArg 32 3840 env.argbuf).map fun
    | (argc, .kSuccess) => (.ok argc, st)
    | (_, err) => (.error err, st)

/-- `ExecuteFile` up to `MakeArgVector`, with what `LoadFile` has put into the buffer. -/
def startFile (image : ElfImage) (st : Mmu) : Result Unit :=
  if image.isElf then
    Result.andThen st.setupPML4 fun _ st =>
    Result.andThen (st.loadELF image) fun _ st =>
    st.setupPageMaps argsFrameAddr 1
  else some (.error .kInvalidFormat, st)

/-- `ExecuteFile` up to the first `push_back` to `task.Files()`. -/
def prepareFile (image : ElfImage) (env : Environment) (st : Mmu) : Result Terminal.ArgVector :=
  Result.andThen (st.startFile image) fun _ st =>
  Result.andThen (st.makeArgs env) fun argc st =>
  Result.andThen (st.setupPageMaps stackFrameAddr 1) fun _ st => some (.ok argc, st)

/-- `ExecuteFile` with `task.Files()` before and after it. -/
def executeFileTask {φ : Type} (image : ElfImage) (env : Environment) (st : Mmu) (files : List φ) :
    Option (Except Error Int × Mmu × List φ) :=
  match prepareFile image env st with
  | none => none
  | some (.error err, st) => some (.error err, st, files)
  | some (.ok argc, st) =>
    (env.callApp argc image.eEntry st).bind fun ret =>
      (ret.2.cleanPageMaps ⟨image.getFirstLoadAddress⟩).bind fun st =>
        -- whatever the application has added, `clear()` leaves nothing
        (st.freePML4 env.resetCR3).map fun st => (.ok ret.1, st, [])

end Mmu

end Moxia
