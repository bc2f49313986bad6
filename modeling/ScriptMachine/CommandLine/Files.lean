import ScriptMachine.Diagnostic

/-! # Reading source files

What can go wrong when a source file is read, and a file tree given as data in
which paths are looked up the way an operating system does it: step by step
from the root or from the working directory, each step but the last leading to
a directory. -/

namespace ScriptMachine

/-- Why a file cannot be read: the operating system refuses, with its
description and number, or the contents are no text. -/
inductive ReadFault where
  | system (description : String) (number : Nat)
  | notText
  deriving DecidableEq, Repr, Inhabited

namespace ReadFault

def notFound : ReadFault := .system "No such file or directory" 2

def notDirectory : ReadFault := .system "Not a directory" 20

def isDirectory : ReadFault := .system "Is a directory" 21

def nameTooLong : ReadFault := .system "File name too long" 36

def permissionDenied : ReadFault := .system "Permission denied" 13

def tooManyLinks : ReadFault := .system "Too many levels of symbolic links" 40

/-- The fault with a number; one without a description of its own here takes
`details`. -/
def ofNumber (number : Nat) (details : String) : ReadFault :=
  match number with
  | 2 => notFound
  | 13 => permissionDenied
  | 20 => notDirectory
  | 21 => isDirectory
  | 36 => nameTooLong
  | 40 => tooManyLinks
  | _ => .system details number

def message : ReadFault → String
  | .system description number => description ++ " (os error " ++ toString number ++ ")"
  | .notText => "stream did not contain valid UTF-8"

def diagnostic (path : String) (fault : ReadFault) : Diagnostic :=
  { code := "E0001", message := "Unable to read file: " ++ fault.message, file := path,
    span := .nowhere, notes := ["IO error"],
    help := some "Ensure the path exists and is readable." }

end ReadFault

/-- The text that bytes stand for. -/
def decodeText (bytes : ByteArray) : Except ReadFault String :=
  match String.fromUTF8? bytes with
  | some text => .ok text
  | none => .error .notText

/-- What a path names. -/
inductive FileNode where
  | file (bytes : ByteArray)
  | directory

/-- The longest name of a file, in bytes. -/
def maxNameLength : Nat := 255

/-- The longest path, in bytes. -/
def maxPathLength : Nat := 4095

/-- Files and directories by the steps that lead to them from the root, and the
place where relative paths start. Directories on the way to an entry need not be
listed. -/
structure FileTree where
  entries : List (List String × FileNode)
  workingDirectory : List String

namespace FileTree

/-- Whether a step of a path stays where it is. -/
def isIdle (step : String) : Bool := step = "" || step = "."

/-- The steps of a path that lead somewhere. -/
def stepsOf (path : String) : List String := (path.splitOn "/").filter fun step => !isIdle step

/-- The tree with one more entry, whose path is relative to the working
directory. -/
def insert (t : FileTree) (path : String) (node : FileNode) : FileTree :=
  { t with entries := (t.workingDirectory ++ stepsOf path, node) :: t.entries }

/-- What is at a place. A place with something below it is a directory. -/
def nodeAt? (t : FileTree) (place : List String) : Option FileNode :=
  match t.entries.lookup place with
  | some node => some node
  | none => if t.entries.any fun (steps, _) => place.isPrefixOf steps then some .directory else none

/-- Follows a path from the directory `here`, given as steps in reverse. -/
def walk (t : FileTree) (here : List String) : List String → Except ReadFault FileNode
  | [] => .ok .directory
  | step :: steps =>
    if isIdle step then t.walk here steps
    else if step = ".." then t.walk (here.drop 1) steps
    else if maxNameLength < step.utf8ByteSize then .error .nameTooLong
    else
      match t.nodeAt? (step :: here).reverse with
      | none => .error .notFound
      | some .directory => t.walk (step :: here) steps
      | some (.file bytes) => if steps.isEmpty then .ok (.file bytes) else .error .notDirectory

/-- What a path names. An empty path names nothing. -/
def find (t : FileTree) (path : String) : Except ReadFault FileNode :=
  let steps := path.splitOn "/"
  if path = "" then .error .notFound
  else if maxPathLength < path.utf8ByteSize then .error .nameTooLong
  else if steps.head? = some "" then t.walk [] steps
  else t.walk t.workingDirectory.reverse steps

/-- Reads the text of a file. -/
def read (t : FileTree) (path : String) : Except ReadFault String :=
  match t.find path with
  | .ok (.file bytes) => decodeText bytes
  | .ok .directory => .error .isDirectory
  | .error fault => .error fault

end FileTree

end ScriptMachine
