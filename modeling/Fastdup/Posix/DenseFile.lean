import Fastdup.Library.Bytes
import Fastdup.Posix.Mutation

/-!
# Files as they are seen

A file is the list of its cells. A cell has a byte and is allocated or not; a cell that is not
allocated reads as zero. The operations on this list say what a write, a truncation, an
allocation or a clone is for. How the bytes are kept does not matter here.
-/

namespace Fastdup.Posix

open Library Checked

/-- One byte of a file and whether storage is allocated for it. -/
structure Cell where
  byte : UInt8
  allocated : Bool
  deriving DecidableEq, Repr

namespace Cell

/-- A byte that reads as zero and takes no storage. -/
def hole : Cell where
  byte := 0
  allocated := false

def zeroed : Cell where
  byte := 0
  allocated := true

def written (byte : UInt8) : Cell where
  byte := byte
  allocated := true

end Cell

/-- A file as the sequence of its cells. -/
abbrev DenseFile := List Cell

namespace DenseFile

def bytes (file : DenseFile) : Bytes :=
  file.map Cell.byte

/-- The file cut off or filled up with a hole. -/
def resize (length : ℕ) (file : DenseFile) : DenseFile :=
  file.take length ++ List.replicate (length - file.length) .hole

/-- Replaces the cells of a range that lies in the file. -/
def mapRange (start stop : ℕ) (change : Cell → Cell) (file : DenseFile) : DenseFile :=
  file.take start ++ ((file.take stop).drop start).map change ++ file.drop (max start stop)

/-- Extends the file by a hole if the write begins after its end. -/
def write (offset : ℕ) (data : Bytes) (file : DenseFile) : DenseFile :=
  let room := file.resize (max file.length (offset + data.length))
  room.take offset ++ data.map Cell.written ++ room.drop (offset + data.length)

def punchHole (start stop : ℕ) (file : DenseFile) : DenseFile :=
  file.mapRange start stop fun _ => .hole

/-- Zeroes the range and allocates it. -/
def zeroRange (start stop size : ℕ) (file : DenseFile) : DenseFile :=
  (file.resize (max file.length size)).mapRange start stop fun _ => .zeroed

/-- Allocates what is not allocated and keeps the rest. -/
def allocateZero (start stop size : ℕ) (file : DenseFile) : DenseFile :=
  (file.resize (max file.length size)).mapRange start stop fun cell =>
    { cell with allocated := true }

/-- Takes a range out and moves up what follows. -/
def collapseRange (start stop : ℕ) (file : DenseFile) : DenseFile :=
  file.take start ++ file.drop stop

/-- Puts a hole in and moves down what follows. -/
def insertRange (offset length : ℕ) (file : DenseFile) : DenseFile :=
  file.take offset ++ List.replicate length .hole ++ file.drop offset

def cloneRange (file : DenseFile) (targetOffset : ℕ) (source : DenseFile)
    (sourceOffset length : ℕ) : DenseFile :=
  file.write targetOffset ((source.bytes.drop sourceOffset).take length)

def fallocateSize (mode : FallocateMode) (offset length : ℕ) (file : DenseFile) :
    Except PosixError ℕ :=
  match mode with
  | .allocate true | .zeroRange true | .punchHole => .ok file.length
  | .allocate false | .zeroRange false => .ok (max file.length (offset + length))
  | .collapseRange => do
      require (file.length ≤ offset + length) .invalidArgument
      pure (file.length - length)
  | .insertRange => do
      require (file.length ≤ offset) .invalidArgument
      checkedAdd .fileTooLarge file.length length

/-- The content after a preallocation of each mode. -/
def fallocate (mode : FallocateMode) (offset length size : ℕ) (file : DenseFile) : DenseFile :=
  match mode with
  | .allocate _ => file.allocateZero offset (min (offset + length) size) size
  | .punchHole => file.punchHole offset (offset + length)
  | .zeroRange _ => file.zeroRange offset (min (offset + length) size) size
  | .collapseRange => file.collapseRange offset (offset + length)
  | .insertRange => file.insertRange offset length

end DenseFile

end Fastdup.Posix
