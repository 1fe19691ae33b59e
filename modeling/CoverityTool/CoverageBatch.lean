import CoverityTool.Perl
import CoverityTool.Lib.Runs

/-! `Coverity::CoverageBatch`: the batch file of a test. `create` writes a header, and one record for each
    gcda path that the traversal of `gcdaFolder` hands to `prepare_batch`.

The program is modelled by its runs: the calls to the system that it makes, in order, and whether it
returns or dies. It reads three answers of the system (`Sys`); what a `print` or a `close` answers it
does not look at, so a run does not depend on it. `traverse_gcda` recurses on what the system answers,
which need not be finite, so the model takes fuel. -/

namespace CoverityTool
open Perl Runs

structure CoverageBatch where
  gcdaFolder : Str
  gcnoFolder : Str
  testname : Str
  suitename : Str
  teststart : Str
  output : Str
  deriving DecidableEq, Repr

/-- The answers of the system that the program looks at. -/
structure Sys where
  /-- `open`, given the string with the mode: the text of `$!` when it fails. -/
  openOut : Str → Except Str Unit
  /-- `-d`; also false when the entry cannot be examined. -/
  isDir : Str → Bool
  /-- `opendir`, and then the names that `readdir` gives, in order. -/
  opendir : Str → Option (List Str)

inductive Call where
  | openOut (file : Str)
  | print (text : Str)
  | opendir (folder : Str)
  | close
  deriving DecidableEq, Repr

/-- A run of the program; an error is the message of `die`, less the line it adds. -/
abbrev Prog := Run Str Call

/-- check if a file name ends in gcda -/
def isGcdaFile (filename : Str) : Bool :=
  let char := lit "."
  let lindex := rindex filename char
  let ext := substr filename (lindex + 1)
  ext = lit "gcda"

/-- get relative path -/
def getRelativePath (filename relFolderName : Str) : Str :=
  let index := rindex filename relFolderName
  substr filename (index + relFolderName.length)

/-- `opendir`, or die, and the loop over what `readdir` gives. -/
def readdirLoop (sys : Sys) (folder : Str) (body : Str → Prog) : Prog :=
  match sys.opendir folder with
  | none => .die (lit "Died")
  | some subs => (Run.call (.opendir folder)).andThen <| Run.each (fun sub =>
      if sub = lit "." ∨ sub = lit ".." then .skip else body sub) subs

/-- `open` or die, the print of the header, the traversal, and `close`: the body of `create`. -/
def createWith (sys : Sys) (filename headerText : Str) (traversal : Prog) : Prog :=
  match sys.openOut (lit ">" ++ filename) with
  | .error errno => .die (lit "Could not open file '" ++ filename ++ lit "' " ++ errno)
  | .ok () =>
    (Run.call (.openOut (lit ">" ++ filename))).andThen <|
      (Run.call (.print headerText)).andThen <| traversal.andThen <| .call .close

namespace CoverageBatch

/-- get gcno path based on gcda file path -/
def getGcnoPath (self : CoverageBatch) (gcdaFile : Str) : Str :=
  let relativePath := getRelativePath gcdaFile (lit "Application")
  let relativePath := subst (lit ".gcda") (lit ".gcno") relativePath
  self.gcnoFolder ++ relativePath

/-- The text that `prepare_batch` prints. -/
def batchText (self : CoverageBatch) (gcdaFile : Str) : Str :=
  let filenameLength := gcdaFile.length
  let gcdaStr := lit "gcda:" ++ decimal filenameLength ++ lit ":" ++ gcdaFile ++ lit "\n"
  let gcnoFile := self.getGcnoPath gcdaFile
  let gcnoStr := lit "gcno:" ++ decimal gcnoFile.length ++ lit ":" ++ gcnoFile ++ lit "\n"
  let compilationStr := lit "compilation-directory:" ++ decimal (dirname gcnoFile).length ++ lit ":" ++
    dirname gcnoFile ++ lit "\n"
  gcdaStr ++ gcnoStr ++ compilationStr ++ lit "run\n"

/-- generate process command for one gcda file and write to output file -/
def prepareBatch (self : CoverageBatch) (gcdaFile : Str) : Prog := .call (.print (self.batchText gcdaFile))

/-- traverse and find all gcda files in a folder -/
def traverseGcda (self : CoverageBatch) (sys : Sys) : Nat → Str → Prog
  | 0, _ => .unfinished
  | fuel + 1, folder =>
    -- The name is looked at before `-d` is asked. `close` does nothing to a directory handle.
    (if isGcdaFile folder then self.prepareBatch folder else .skip).andThen <|
      if !sys.isDir folder then .skip
      else readdirLoop sys folder fun sub => traverseGcda self sys fuel (folder ++ lit "/" ++ sub)

/-- The header that `create` prints. -/
def headerText (self : CoverageBatch) : Str :=
  let suitnameLength := self.suitename.length
  let testnameLength := self.testname.length
  let teststartLength := self.teststart.length
  lit "suitename:" ++ decimal suitnameLength ++ lit ":" ++ self.suitename ++ lit "\n" ++
  lit "testname:" ++ decimal testnameLength ++ lit ":" ++ self.testname ++ lit "\n" ++
  lit "teststart:" ++ decimal teststartLength ++ lit ":" ++ self.teststart ++ lit "\n" ++
  lit "verbose\n"

/-- main, create a batch file for a test -/
def create (self : CoverageBatch) (sys : Sys) (fuel : Nat) : Prog :=
  createWith sys self.output self.headerText (self.traverseGcda sys fuel self.gcdaFolder)

end CoverageBatch

end CoverityTool
