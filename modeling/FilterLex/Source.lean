import FilterLex.Lexer.Run
import FilterLex.Text.Utf8

/-!
# Sources

What a user hands over to be read. Text and feeds are read; anything else is rejected
before the first read.

A document is a stored byte string that is read as UTF-8 text, with its line ends made
line feeds. It is read in chunks. Bytes that are not well formed spoil the chunk they are in,
and none of its text is delivered; the beginning of a character, or a carriage return, at the
end of a chunk waits for the next chunk.
-/

namespace FilterLex

inductive Source
  | nothing
  | foreign (t : ForeignType)
  | feed (s : Feed)
  deriving DecidableEq, Repr

def Source.text (text : String) : Source := .feed (Feed.ofString text)

inductive LoadError
  | noSource
  | notReadable (t : ForeignType)
  deriving DecidableEq, Repr

def LoadError.message : LoadError → String
  | .noSource => "Source cannot be None."
  | .notReadable t => "Source must be a string or a text stream, got " ++ t.name ++ "."

namespace Source

/-- A new reader over a source. To a reader, no source at all is one more thing that
cannot be read. -/
def toReader : Source → Except LoadError Reader
  | .nothing => .error (.notReadable .null)
  | .foreign t => .error (.notReadable t)
  | .feed s => .ok { feed := s }

/-- A new reader for a lexer, which tells a missing source from an unreadable one. -/
def load : Source → Except LoadError Reader
  | .nothing => .error .noSource
  | s => s.toReader

end Source

/-! ## Documents -/

namespace Feed

open Text Text.Utf8

def decodeFault (e : DecodeError) : Fault := ⟨.device "UnicodeDecodeError", e.message⟩

/-- What is read of a document at a time, in bytes. -/
def chunkSize : Nat := 8192

def takeChunks : Nat → List UInt8 → List (List UInt8)
  | 0, _ => []
  | n + 1, bytes => bytes.take chunkSize :: takeChunks n (bytes.drop chunkSize)

def chunks (bytes : List UInt8) : List (List UInt8) :=
  takeChunks ((bytes.length + chunkSize - 1) / chunkSize) bytes

def textReads (text : List Char) : List Outcome := (toLineFeeds text).map fun c => .piece [c]

/-- What the reads bring of the chunks to come, and after them. The chunks before have left the
bytes `held` of an unfinished character, and the text `waiting`, a carriage return at most. A
chunk that is refused is lost and changes neither. -/
def documentReads (held : List UInt8) (waiting : List Char) :
    List (List UInt8) → List Outcome × Tail
  | [] =>
      match decode held with
      | .text cs => (textReads (waiting ++ cs), .ended)
      | .malformed e | .truncated _ e => ([], .fault (decodeFault e))
  | chunk :: chunks =>
      match decode (held ++ chunk) with
      | .malformed e =>
          let later := documentReads held waiting chunks
          (.fault (decodeFault e) :: later.1, later.2)
      | .text cs | .truncated cs _ =>
          let later := documentReads ((held ++ chunk).drop (encodedSize cs))
            (heldReturn (waiting ++ cs)) chunks
          (textReads (withoutHeldReturn (waiting ++ cs)) ++ later.1, later.2)

def ofDocument (bytes : List UInt8) : Feed :=
  let reads := documentReads [] [] (chunks bytes)
  { ahead := reads.1, tail := reads.2, backing := .text reads.1.length }

end Feed

/-! ## Tokens -/

/-- The tokens of a source, up to the end of the input or the first error. -/
def tokenize (options : Options) (source : Source) : Except LoadError Run :=
  (Lexer.run options) <$> source.load

end FilterLex
