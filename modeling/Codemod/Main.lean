import Codemod.Cli

/-!
The program. It looks at the part of the disk that the command line is about, works out what to
do, writes the files, and prints the report.
-/

namespace Codemod.Cli

def decode (bytes : ByteArray) : Contents :=
  match String.fromUTF8? bytes with
  | some source => .text source
  | none => .unreadable "stream did not contain valid UTF-8"

def describe : IO.Error → String
  | .permissionDenied .. => "Permission denied (os error 13)"
  | other => other.toString

def textOfPlace (place : List String) : String :=
  "/" ++ String.intercalate "/" place

/-- Add what is at a place to a disk, and everything below it if asked for. -/
partial def survey (deep : Bool) (disk : Disk) (place : List String) : IO Disk := do
  let path := (← IO.currentDir) / textOfPlace place
  if ← path.isDir then
    let disk := { disk with directories := place :: disk.directories }
    unless deep do return disk
    let listing : Except String (Array IO.FS.DirEntry) ← try pure (.ok (← path.readDir))
      catch error => pure (.error (describe error))
    match listing with
    | .error reason => return { disk with unlisted := (place, reason) :: disk.unlisted }
    | .ok entries =>
        let names := entries.toList.map fun entry => entry.fileName
        names.foldlM (fun disk name => survey true disk (place ++ [name])) disk
  else if ← path.pathExists then
    let contents ← try pure (decode (← IO.FS.readBinFile path))
      catch error => pure (.unreadable (describe error))
    return { disk with files := (place, contents) :: disk.files }
  else return disk

def surveyPath (disk : Disk) (path : String) : IO Disk := do
  match disk.start? path with
  | none => return disk
  | some (start, parts) =>
      let step (state : Disk × List String) (part : String) : IO (Disk × List String) := do
        let (disk, place) := state
        let disk ← survey false disk place
        if part = "" || part = "." then return (disk, place)
        else if part = ".." then return (disk, place.dropLast)
        else return (disk, place ++ [part])
      let (disk, place) ← parts.foldlM step (disk, start)
      survey true disk place

def look (arguments : List String) : IO Disk := do
  let here := (← IO.currentDir).toString
  let disk : Disk := { files := [], workingDirectory := (here.splitOn "/").filter (· ≠ "") }
  match Invocation.parse arguments with
  | .ok (.run args) =>
      let disk ← (args.paths ++ args.config.toList).foldlM surveyPath disk
      (Disk.upward disk.workingDirectory).foldlM
        (fun disk place => survey false disk (place ++ [configFile])) disk
  | _ => return disk

def writeAll (writes : List (String × String)) : IO (List (String × String)) := do
  let attempts ← writes.mapM fun (path, text) => do
    try
      IO.FS.writeFile path text
      return none
    catch error => return some (path, describe error)
  return attempts.filterMap id

end Codemod.Cli

open Codemod in
def main (arguments : List String) : IO UInt32 := do
  let disk ← Cli.look arguments
  let refusals ← Cli.writeAll (Cli.run disk arguments).writes
  let output := Cli.run { disk with refusals } arguments
  IO.eprint output.stderr
  IO.print output.stdout
  return UInt32.ofNat output.exit
