import FilterLex.Source

/-!
# Sessions

A session holds feeds, readers, lexers and iterators that refer to one another. Several
readers may share a feed, several lexers a reader, several iterators a lexer. Each
object is known by the number under which it was made; `Session.step` performs one step
on one object and says what it answered and what it logged.

Only feeds and readers hold what is left of an input. A lexer holds its settings and the
number of its reader, an iterator its lexer and how far its own run has come.
-/

namespace FilterLex

namespace Session

/-! ## Objects -/

/-- A reader of a session: the feed it reads and the piece it holds back. -/
structure SharedReader where
  feed : Nat
  pending : Option Piece := none
  deriving DecidableEq, Repr

inductive Origin
  | source (s : Source)
  | feed (id : Nat)
  deriving DecidableEq, Repr

/-- What a lexer is bound to: a reader of its own over some origin, or one that exists. -/
inductive Binding
  | fresh (o : Origin)
  | shared (reader : Nat)
  deriving DecidableEq, Repr

structure LexerState where
  options : Options := {}
  debug : Bool := false
  reader : Option Nat := none
  deriving DecidableEq, Repr

/-- How far an iterator has come. An unstarted one binds its lexer first. -/
inductive Phase
  | unstarted (b : Binding)
  | running
  | finished
  deriving DecidableEq, Repr

structure IteratorState where
  lexer : Nat
  phase : Phase
  deriving DecidableEq, Repr

end Session

structure Session where
  feeds : Array Feed := #[]
  readers : Array Session.SharedReader := #[]
  lexers : Array Session.LexerState := #[]
  iterators : Array Session.IteratorState := #[]
  deriving DecidableEq, Repr

namespace Session

/-! ## Steps and answers -/

inductive Place
  | feed (id : Nat)
  | reader (id : Nat)
  | lexer (id : Nat)
  deriving DecidableEq, Repr

/-- The scanning actions that a lexer offers by themselves. -/
inductive ScanRule
  | next
  | eof
  | number
  | ident
  | string (quote : Piece)
  | punctuation (mark : Piece)
  deriving DecidableEq, Repr

inductive Step
  | openFeed (f : Feed)
  | openReader (o : Origin)
  | openLexer (b : Option Binding) (options : Options) (debug : Bool)
  | load (lexer : Nat) (b : Binding)
  | configure (lexer : Nat) (debug strictStrings : Option Bool)
  | close (feed : Nat)
  | tell (p : Place)
  | peek (reader : Nat)
  | take (reader : Nat)
  | consume (lexer : Nat)
  | list (lexer : Nat)
  | iterate (lexer : Nat)
  | tokenize (lexer : Nat) (b : Binding)
  | next (iterator : Nat)
  | takeRun (lexer : Nat) (accept : Piece → Bool)
  | scan (lexer : Nat) (rule : ScanRule)
  | report (lexer : Nat) (message : String)

inductive StepError
  | rejected (e : LoadError)
  | failed (e : Failure)
  deriving DecidableEq, Repr

inductive Answer
  | done
  | made (id : Nat)
  | position (n : Nat)
  | piece (p : Piece)
  | token (t : Token)
  | tokens (ts : List Token) (fault : Option Fault)
  | text (cs : List Char)
  | finished
  | error (e : StepError)
  /-- The step names an object that does not exist, or lacks a reader it needs. -/
  | dangling
  deriving DecidableEq, Repr

structure Effect where
  answer : Answer
  log : List String := []
  session : Session
  deriving DecidableEq, Repr

/-! ## Acting on objects -/

def reader? (s : Session) (id : Nat) : Option Reader := do
  let shared ← s.readers[id]?
  let feed ← s.feeds[shared.feed]?
  return { feed, pending := shared.pending }

/-- Puts a reader back, and with it its feed. -/
def putReader (s : Session) (id : Nat) (r : Reader) : Session :=
  match s.readers[id]? with
  | some shared =>
      { s with
        readers := s.readers.setIfInBounds id { shared with pending := r.pending }
        feeds := s.feeds.setIfInBounds shared.feed r.feed }
  | none => s

def withReader {ε α : Type} (s : Session) (id : Nat) (act : EStateM ε Reader α) :
    Option (Except ε α × Session) :=
  (s.reader? id).map fun r =>
    match act r with
    | .ok a r => (.ok a, s.putReader id r)
    | .error e r => (.error e, s.putReader id r)

def addReader (s : Session) (feed : Nat) : Nat × Session :=
  (s.readers.size, { s with readers := s.readers.push { feed } })

def addFeedReader (s : Session) (r : Reader) : Nat × Session :=
  { s with feeds := s.feeds.push r.feed }.addReader s.feeds.size

/-- The reader that a binding leads to. Only a rejected source fails, and then nothing
is made. -/
def bind (s : Session) : Binding → Except LoadError (Nat × Session)
  | .fresh (.source source) => source.load.map s.addFeedReader
  | .fresh (.feed id) => .ok (s.addReader id)
  | .shared reader => .ok (reader, s)

def load (s : Session) (lexer : Nat) (l : LexerState) (b : Binding) :
    Except LoadError Session := do
  let (id, s) ← s.bind b
  return { s with lexers := s.lexers.setIfInBounds lexer { l with reader := some id } }

def unboundMessage : String := "no source loaded"

def consume (s : Session) (l : LexerState) : Option (Except Fault Token × Session) :=
  match l.reader with
  | none => some (.ok (Token.ofError unboundMessage), s)
  | some id => s.withReader id (Lexer.consume l.options)

def run (s : Session) (l : LexerState) : Option ((List Token × Option Fault) × Session) :=
  match l.reader with
  | none => some (([Token.ofError unboundMessage], none), s)
  | some id =>
      (s.reader? id).map fun r =>
        let run := Lexer.run l.options r
        ((run.tokens, run.fault), s.putReader id run.reader)

def scanWith (options : Options) : ScanRule → ReadM Token
  | .next => Lexer.scan options
  | .eof => Lexer.scanEnd
  | .number => Lexer.scanNumber
  | .ident => Lexer.scanIdent
  | .string quote => Lexer.scanString options quote
  | .punctuation mark => Lexer.scanPunctuation mark

/-! ## One step -/

def feedAt? (s : Session) : Place → Option Feed
  | .feed id => s.feeds[id]?
  | .reader id => (s.reader? id).map (·.feed)
  | .lexer id => do
      let l ← s.lexers[id]?
      let r ← s.reader? (← l.reader)
      return r.feed

def Answer.ofRead {α : Type} (answer : α → Answer) : Except Failure α → Answer
  | .ok a => answer a
  | .error e => .error (.failed e)

/-- The effect of asking a lexer for its next token. -/
def Effect.ofConsume (debug : Bool) : Except Fault Token × Session → Effect
  | (.ok t, session) => { answer := .token t, log := Log.records debug [t], session }
  | (.error f, session) => { answer := .error (.failed (.reading f)), session }

/-- A token of an iterator's own run. The run is finished by a final token and by a fault,
which leaves an iteration. -/
def advance (s : Session) (id : Nat) (it : IteratorState) : Option Effect := do
  let l ← s.lexers[it.lexer]?
  let (result, s) ← s.consume l
  let goesOn := match result with
    | .ok t => !t.isFinal
    | .error _ => false
  let phase := if goesOn then .running else .finished
  let s := { s with iterators := s.iterators.setIfInBounds id { it with phase } }
  return Effect.ofConsume l.debug (result.mapError Fault.leavingIteration, s)

/-- The next token of an iterator. A rejected source finishes it. -/
def next (s : Session) (id : Nat) : Option Effect := do
  let it ← s.iterators[id]?
  match it.phase with
  | .finished => return { answer := .finished, session := s }
  | .running => s.advance id it
  | .unstarted b =>
      let l ← s.lexers[it.lexer]?
      match s.load it.lexer l b with
      | .ok s => s.advance id it
      | .error e =>
          let stopped := { it with phase := .finished }
          return {
            answer := .error (.rejected e)
            session := { s with iterators := s.iterators.setIfInBounds id stopped } }

def step? (s : Session) : Step → Option Effect
  | .openFeed f => some {
      answer := .made s.feeds.size
      session := { s with feeds := s.feeds.push f } }
  | .openReader (.source source) =>
      match source.toReader with
      | .ok r =>
          let (id, s) := s.addFeedReader r
          some { answer := .made id, session := s }
      | .error e => some { answer := .error (.rejected e), session := s }
  | .openReader (.feed id) =>
      let (id, s) := s.addReader id
      some { answer := .made id, session := s }
  | .openLexer none options debug => some {
      answer := .made s.lexers.size
      session := { s with lexers := s.lexers.push { options, debug } } }
  | .openLexer (some b) options debug =>
      match s.bind b with
      | .ok (id, s) => some {
          answer := .made s.lexers.size
          session := { s with lexers := s.lexers.push { options, debug, reader := some id } } }
      | .error e => some { answer := .error (.rejected e), session := s }
  | .load lexer b => do
      let l ← s.lexers[lexer]?
      match s.load lexer l b with
      | .ok s => return { answer := .done, session := s }
      | .error e => return { answer := .error (.rejected e), session := s }
  | .configure lexer debug strictStrings => do
      let l ← s.lexers[lexer]?
      let l := { l with
        debug := debug.getD l.debug
        options := { l.options with
          strictStrings := strictStrings.getD l.options.strictStrings } }
      return { answer := .done, session := { s with lexers := s.lexers.setIfInBounds lexer l } }
  | .close feed => do
      let f ← s.feeds[feed]?
      return { answer := .done, session := { s with feeds := s.feeds.setIfInBounds feed f.close } }
  | .tell place => do
      let f ← s.feedAt? place
      match f.tell with
      | .ok n => return { answer := .position n, session := s }
      | .error fault => return { answer := .error (.failed (.reading fault)), session := s }
  | .peek reader => do
      let (result, s) ← s.withReader reader Reader.peek
      return { answer := .ofRead .piece result, session := s }
  | .take reader => do
      let (result, s) ← s.withReader reader Reader.take
      return { answer := .ofRead .piece result, session := s }
  | .consume lexer => do
      let l ← s.lexers[lexer]?
      return Effect.ofConsume l.debug (← s.consume l)
  | .list lexer => do
      let l ← s.lexers[lexer]?
      let ((tokens, fault), s) ← s.run l
      return { answer := .tokens tokens fault, log := Log.records l.debug tokens, session := s }
  | .iterate lexer => some {
      answer := .made s.iterators.size
      session := { s with iterators := s.iterators.push { lexer, phase := .running } } }
  | .tokenize lexer b => some {
      answer := .made s.iterators.size
      session := { s with iterators := s.iterators.push { lexer, phase := .unstarted b } } }
  | .next iterator => s.next iterator
  | .takeRun lexer accept => do
      let l ← s.lexers[lexer]?
      let (result, s) ← s.withReader (← l.reader) (Reader.takeRun accept)
      return { answer := .ofRead .text result, session := s }
  | .scan lexer .eof => do
      let _ ← s.lexers[lexer]?
      return { answer := .token Token.endOfInput, session := s }
  | .scan lexer rule => do
      let l ← s.lexers[lexer]?
      let (result, s) ← s.withReader (← l.reader) (scanWith l.options rule)
      return { answer := .ofRead .token result, session := s }
  | .report lexer message => do
      let l ← s.lexers[lexer]?
      let t := Token.ofError message
      return { answer := .token t, log := Log.records l.debug [t], session := s }

/-- One step. A step on objects that do not exist changes nothing. -/
def step (s : Session) (st : Step) : Effect :=
  (s.step? st).getD { answer := .dangling, session := s }

end Session

end FilterLex
