/-
  Nachos.Utility.Config

  `Config::Config` of `utility/config.cc`, from the default values to the end of the loop
  that reads the configuration file line by line.
-/

import Nachos.Lib.Guarded
import Nachos.Lib.Stdio

namespace Nachos
namespace ConfigFile

open Stdio

def LINE_LENGTH : Nat := 256

/-- Size of an array for a name. -/
def MAXSTRLEN : Nat := 100

/-- Rows of `ToCopyUnix` and of `ToCopyNachos`. -/
def MAXCOPY : Nat := 100

inductive AciaMode where
  | ACIA_NONE | ACIA_BUSY_WAITING | ACIA_INTERRUPT
deriving DecidableEq, Repr, Inhabited

/-- The parameters that a file can set. -/
structure Config where
  PageSize : Int
  NumPhysPages : Int
  SectorSize : Int
  ProcessorFrequency : Int
  ACIA : AciaMode
  MaxFileNameSize : Int
  NumDirEntries : Int
  NumPortLoc : Int
  NumPortDist : Int
  TargetMachineName : List Char
  MaxVirtPages : Int
  UserStackSize : Int
  NbCopy : Nat
  ListDir : Bool
  PrintFileSyst : Bool
  PrintStat : Bool
  FormatDisk : Bool
  Print : Bool
  Remove : Bool
  MakeDir : Bool
  RemoveDir : Bool
  ToCopyUnix : Nat → List Char
  ToCopyNachos : Nat → List Char
  ProgramToRun : List Char
  FileToPrint : List Char
  FileToRemove : List Char
  DirToMake : List Char
  DirToRemove : List Char
deriving Inhabited

/-- The default values, over an object that is not initialised. -/
def defaults (raw : Config) : Config :=
  { raw with
    SectorSize := 128
    PageSize := 128
    NumPhysPages := 20
    MaxVirtPages := 1024
    UserStackSize := 8 * 1024
    ProcessorFrequency := 100
    MaxFileNameSize := 256
    NbCopy := 0
    NumDirEntries := 10
    NumPortLoc := 32009
    NumPortDist := 32009
    PrintStat := false
    FormatDisk := false
    ListDir := false
    PrintFileSyst := false
    Print := false
    Remove := false
    MakeDir := false
    RemoveDir := false
    ACIA := .ACIA_NONE
    ProgramToRun := [] }

/-- The parameters that are an integer, a truth value or a name. -/
inductive IntField where
  | ProcessorFrequency | NumPhysPages | MaxVirtPages | SectorSize | PageSize | UserStackSize
  | MaxFileNameSize | NumDirEntries | NumPortLoc | NumPortDist
deriving DecidableEq, Repr

inductive BoolField where
  | PrintStat | FormatDisk | ListDir | PrintFileSyst
deriving DecidableEq, Repr

inductive NameField where
  | TargetMachineName | ProgramToRun | FileToPrint | FileToRemove | DirToMake | DirToRemove
deriving DecidableEq, Repr

/-- What a line asks for. -/
inductive Directive where
  | int (field : IntField) (v : Int)
  | bool (field : BoolField) (v : Int)
  | name (field : NameField) (value : List Char)
  | FileToCopy (unix nachos : List Char)
  | UseACIA (mode : AciaMode)
deriving DecidableEq, Repr

/-- How the constructor ends before its time: `fail` calls `exit`, or an array is written
    outside its bounds. -/
inductive Ending where
  | fail
  | undefined
deriving DecidableEq, Repr

/-! ## A line -/

/-- What follows `commande` and the sign in a line, for `sscanf (ligne, " %s = ...")`. -/
def value (ligne : List Char) : Option (List Char) := do
  let (_, s) ← scanWord ligne
  scanChar '=' s

/-- `" %s = %i "`. -/
def intValue (ligne : List Char) : Option Int := do
  let s ← value ligne
  scanInt s

/-- `" %s = %s "`. -/
def nameValue (ligne : List Char) : Option (List Char) := do
  let s ← value ligne
  let (word, _) ← scanWord s
  pure word

/-- `" %s = %s %s"`. -/
def twoNames (ligne : List Char) : Option (List Char × List Char) := do
  let s ← value ligne
  let (first, s) ← scanWord s
  let (second, _) ← scanWord s
  pure (first, second)

def aciaMode (acia_mode : List Char) : Option AciaMode :=
  if acia_mode = "None".toList then some .ACIA_NONE
  else if acia_mode = "BusyWaiting".toList then some .ACIA_BUSY_WAITING
  else if acia_mode = "Interrupt".toList then some .ACIA_INTERRUPT
  else none

/-- The names of the parameters. -/
def intFields : List (String × IntField) :=
  [("ProcessorFrequency", .ProcessorFrequency), ("NumPhysPages", .NumPhysPages),
   ("MaxVirtPages", .MaxVirtPages), ("SectorSize", .SectorSize), ("PageSize", .PageSize),
   ("UserStackSize", .UserStackSize), ("MaxFileNameSize", .MaxFileNameSize),
   ("NumDirEntries", .NumDirEntries), ("NumPortLoc", .NumPortLoc), ("NumPortDist", .NumPortDist)]

def boolFields : List (String × BoolField) :=
  [("PrintStat", .PrintStat), ("FormatDisk", .FormatDisk), ("ListDir", .ListDir),
   ("PrintFileSyst", .PrintFileSyst)]

def nameFields : List (String × NameField) :=
  [("TargetMachineName", .TargetMachineName), ("ProgramToRun", .ProgramToRun),
   ("FileToPrint", .FileToPrint), ("FileToRemove", .FileToRemove), ("DirToMake", .DirToMake),
   ("DirToRemove", .DirToRemove)]

/-- The parameter with a name, the names being compared with `strcmp`. -/
def fieldOf {α : Type} (commande : List Char) (fields : List (String × α)) : Option α :=
  (fields.find? fun f => f.1.toList = commande).map Prod.snd

/-- The comparisons of `commande` with the names, and the `sscanf` of the one that it is. -/
def parse (ligne : List Char) : Option Directive := do
  let (commande, _) ← scanWord ligne
  match fieldOf commande intFields with
  | some field => (intValue ligne).map (.int field)
  | none =>
    match fieldOf commande boolFields with
    | some field => (intValue ligne).map (.bool field)
    | none =>
      match fieldOf commande nameFields with
      | some field => (nameValue ligne).map (.name field)
      | none =>
        if commande = "FileToCopy".toList then (twoNames ligne).map fun p => .FileToCopy p.1 p.2
        else if commande = "UseACIA".toList then
          (nameValue ligne).bind fun s => (aciaMode s).map .UseACIA
        else none

/-- Comments and empty lines. -/
def skipped (ligne : List Char) : Bool :=
  ligne.head? = some '#' || ligne = [] || ligne = ['\n']

/-! ## The parameters -/

namespace Config

variable (c : Config)

def setInt (v : Int) : IntField → Config
  | .ProcessorFrequency => { c with ProcessorFrequency := v }
  | .NumPhysPages => { c with NumPhysPages := v }
  | .MaxVirtPages => { c with MaxVirtPages := v }
  | .SectorSize => { c with SectorSize := v }
  | .PageSize => { c with PageSize := v }
  | .UserStackSize => { c with UserStackSize := v }
  | .MaxFileNameSize => { c with MaxFileNameSize := v }
  | .NumDirEntries => { c with NumDirEntries := v }
  | .NumPortLoc => { c with NumPortLoc := v }
  | .NumPortDist => { c with NumPortDist := v }

def setBool (v : Bool) : BoolField → Config
  | .PrintStat => { c with PrintStat := v }
  | .FormatDisk => { c with FormatDisk := v }
  | .ListDir => { c with ListDir := v }
  | .PrintFileSyst => { c with PrintFileSyst := v }

def setName (s : List Char) : NameField → Config
  | .TargetMachineName => { c with TargetMachineName := s }
  | .ProgramToRun => { c with ProgramToRun := s }
  | .FileToPrint => { c with FileToPrint := s, Print := true }
  | .FileToRemove => { c with FileToRemove := s, Remove := true }
  | .DirToMake => { c with DirToMake := s, MakeDir := true }
  | .DirToRemove => { c with DirToRemove := s, RemoveDir := true }

/-- The pair goes into the rows `NbCopy`, and `NbCopy` is one more. -/
def copy (unix nachos : List Char) : Config :=
  { c with
    ToCopyUnix := Function.update c.ToCopyUnix c.NbCopy unix
    ToCopyNachos := Function.update c.ToCopyNachos c.NbCopy nachos
    NbCopy := c.NbCopy + 1 }

end Config

/-- The string and its `'\0'` are inside an array of `MAXSTRLEN` characters. -/
def Fits (s : List Char) : Prop := s.length < MAXSTRLEN

instance (s : List Char) : Decidable (Fits s) := inferInstanceAs (Decidable (_ < _))

open Guarded

/-- The assignments of a line that is accepted. -/
def Directive.apply (c : Config) : Directive → Except Ending Config
  | .int field v => pure (c.setInt v field)
  | .bool field v => pure (c.setBool (v ≠ 0) field)
  | .name field s => do
      demand (Fits s) .undefined
      pure (c.setName s field)
  | .FileToCopy unix nachos => do
      demand (c.NbCopy < MAXCOPY ∧ Fits unix ∧ Fits nachos) .undefined
      pure (c.copy unix nachos)
  | .UseACIA mode => pure { c with ACIA := mode }

/-- The configuration, and the lines that have been applied so far. -/
structure Reading where
  config : Config
  applied : List Directive

/-- The body of the loop, on the line in the buffer. -/
def applyLine (ligne : List Char) (s : Reading) : Except Ending Reading :=
  if skipped ligne then pure s
  else
    match parse ligne with
    | none => .error .fail
    | some directive => do
        let c ← directive.apply s.config
        pure ⟨c, s.applied ++ [directive]⟩

/-- The loop: `while (!feof (cfg))`.  The result of `fgets` is not looked at. -/
def readLines (cfg : FILE) (ligne : List Char) (s : Reading) : Except Ending Reading :=
  if heof : cfg.eof = true then pure s
  else
    have := fgets_left (s := ligne) (n := LINE_LENGTH) (by decide) (eq_false_of_ne_true heof)
    do
      let s ← applyLine (fgets ligne LINE_LENGTH cfg).1 s
      readLines (fgets ligne LINE_LENGTH cfg).2 (fgets ligne LINE_LENGTH cfg).1 s
termination_by cfg.left

/-- `Config::Config` for the contents of the file; `raw` is the object and `junk` the buffer
    `ligne` before anything is put there. -/
def Config.new (raw : Config) (junk : List Char) (contents : List Char) :
    Except Ending Reading :=
  readLines ⟨contents, false⟩ junk ⟨defaults raw, []⟩

end ConfigFile
end Nachos
