import RueSyntax.Parser.State
import RueSyntax.Token.Comment
import RueSyntax.Token.Reading

/-!
# Reading a text

The reader goes through a text byte by byte and drives the parser.  Where nothing is being read
yet, blanks are passed over, a comment is put aside, and otherwise the first reading that the
parser can take next becomes a token.  Each token carries the comments that stand between it and
the token before.  Reading stops for good where no reading fits, and where the text ends too soon;
what is reported then is the end of the last token or comment that was consumed.

Recursion is on the bytes left.  Bytes that belong to a token or comment already consumed are
counted and passed over one at a time.
-/

namespace RueSyntax

/-- The note on a token of a text: the comments before it, its own text, and its place. -/
structure Lexeme where
  comments : List Comment
  text : Bytes
  span : Span
deriving DecidableEq, Repr

/-- What a text holds: its functions, the comments behind the last of them, and where it ends. -/
structure SourceFile where
  functions : Phrase Lexeme .functions
  trailing : List Comment
  stop : Position

/-- The text is not a program.  Nothing behind `stoppedAt` could be consumed. -/
structure SyntaxError where
  stoppedAt : Position
deriving DecidableEq, Repr

/-- How far reading has come. -/
structure Reader where
  /-- What the parser has read. -/
  state : State Lexeme
  /-- The comments since the last token. -/
  comments : List Comment
  /-- The end of the last token or comment. -/
  consumed : Position
  /-- Where the next byte stands. -/
  here : Position

namespace Reader

/-- Before the text that begins at `p`. -/
def start (p : Position) : Reader := ⟨.top .noFunctions, [], .start, p⟩

/-- Passes over one byte. -/
def pass (r : Reader) (b : UInt8) : Reader := { r with here := r.here.next b }

/-- Puts a comment aside. -/
def aside (r : Reader) (kind : CommentKind) (text : Bytes) : Reader :=
  let span := Span.of r.here text
  { r with comments := r.comments ++ [⟨kind, text, span⟩], consumed := span.stop }

/-- Hands a token to the parser, which may refuse it. -/
def take (r : Reader) (t : Terminal) (text : Bytes) : Option Reader :=
  let span := Span.of r.here text
  (r.state.step t ⟨r.comments, text, span⟩).map fun s =>
    { r with state := s, comments := [], consumed := span.stop }

/-- Takes the first of the readings that the parser does not refuse; also says how long it is. -/
def takeFirst (r : Reader) (bs : Bytes) : List Reading → Option (Reader × Nat)
  | [] => none
  | (t, n) :: ts =>
    match r.take t (bs.take n) with
    | some r' => some (r', n)
    | none => r.takeFirst bs ts

/-- Consumes the comment or token at the head of a text, which is not blank there; also says how
long it is. -/
def consume (r : Reader) (bs : Bytes) : Option (Reader × Nat) :=
  match Comment.opening bs with
  | some (kind, n) => some (r.aside kind (bs.take n), n)
  | none => r.takeFirst bs (Reading.all bs)

/-- At the end of the text. -/
def finish (r : Reader) : Except SyntaxError SourceFile :=
  match r.state.finished with
  | some fs => .ok ⟨fs, r.comments, r.here⟩
  | none => .error ⟨r.consumed⟩

/-- Reads on, where the next `n` bytes belong to what was consumed last. -/
def run : Nat → Reader → Bytes → Except SyntaxError SourceFile
  | _, r, [] => r.finish
  | n + 1, r, b :: bs => run n (r.pass b) bs
  | 0, r, b :: bs =>
    if Byte.isBlank b then run 0 (r.pass b) bs
    else
      match r.consume (b :: bs) with
      | some (r', n) => run (n - 1) (r'.pass b) bs
      | none => .error ⟨r.consumed⟩

end Reader

/-- The three bytes that may stand before a text to mark its encoding. -/
def byteOrderMark : Bytes := [0xEF, 0xBB, 0xBF]

/-- Reads a text.  A byte order mark at its very beginning counts as a blank of three columns. -/
def parse (text : Bytes) : Except SyntaxError SourceFile :=
  if byteOrderMark.isPrefixOf text then
    (Reader.start (Position.start.after byteOrderMark)).run 0 (text.drop 3)
  else (Reader.start .start).run 0 text

end RueSyntax
