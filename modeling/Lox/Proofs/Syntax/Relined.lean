import Lox.Syntax.Program

namespace Lox

-- The token on another line.
def Token.relined (f : Token → Int) (t : Token) : Token :=
  { t with line := f t }

-- The lines that come of putting tokens on lines twice.
def thenLine (f g : Token → Int) : Token → Int :=
  fun t => g (t.relined f)

-- The line of a token, so many lines further on.
def Token.lineAfter (lines : Int) (t : Token) : Int :=
  t.line + lines

namespace Token

@[simp] theorem lineAfter_zero : lineAfter 0 = line := by
  funext t
  simp [lineAfter]

@[simp] theorem kind_relined (f : Token → Int) (t : Token) : (t.relined f).kind = t.kind := rfl

@[simp] theorem lexeme_relined (f : Token → Int) (t : Token) :
    (t.relined f).lexeme = t.lexeme := rfl

@[simp] theorem literal_relined (f : Token → Int) (t : Token) :
    (t.relined f).literal = t.literal := rfl

@[simp] theorem relined_line (t : Token) : t.relined line = t := rfl

@[simp] theorem relined_relined (f g : Token → Int) (t : Token) :
    (t.relined f).relined g = t.relined (thenLine f g) := rfl

end Token

mutual

-- A tree with its tokens on other lines.
def Expr.relined (f : Token → Int) : Expr → Expr
  | .assign name value => .assign (name.relined f) (value.relined f)
  | .binary left operator right => .binary (left.relined f) (operator.relined f) (right.relined f)
  | .call callee paren arguments =>
    .call (callee.relined f) (paren.relined f) (Expr.allRelined f arguments)
  | .grouping inner => .grouping (inner.relined f)
  | .literal value => .literal value
  | .logical left operator right =>
    .logical (left.relined f) (operator.relined f) (right.relined f)
  | .unary operator operand => .unary (operator.relined f) (operand.relined f)
  | .variable name => .variable (name.relined f)

def Expr.allRelined (f : Token → Int) : List Expr → List Expr
  | [] => []
  | e :: es => e.relined f :: allRelined f es

end

mutual

def Stmt.relined (f : Token → Int) : Stmt → Stmt
  | .block body => .block (Stmt.allRelined f body)
  | .breakLoop keyword => .breakLoop (keyword.relined f)
  | .expression value => .expression (value.relined f)
  | .function name parameters body =>
    .function (name.relined f) (parameters.map (·.relined f)) (Stmt.allRelined f body)
  | .branch condition yes none => .branch (condition.relined f) (yes.relined f) none
  | .branch condition yes (some no) =>
    .branch (condition.relined f) (yes.relined f) (some (no.relined f))
  | .print value => .print (value.relined f)
  | .returnFrom keyword value => .returnFrom (keyword.relined f) (value.map (·.relined f))
  | .declare name initializer =>
    .declare (name.relined f) (initializer.map (·.relined f))
  | .loop condition body => .loop (condition.relined f) (body.relined f)
  | .jump kind => .jump kind

def Stmt.allRelined (f : Token → Int) : List Stmt → List Stmt
  | [] => []
  | s :: ss => s.relined f :: allRelined f ss

end

theorem Expr.allRelined_eq_map (f : Token → Int) (es : List Expr) :
    Expr.allRelined f es = es.map (·.relined f) := by
  induction es with
  | nil => rfl
  | cons e es ih => simp [Expr.allRelined, ih]

mutual

@[simp] theorem Expr.relined_relined (f g : Token → Int) (e : Expr) :
    (e.relined f).relined g = e.relined (thenLine f g) := by
  cases e <;> simp [Expr.relined, Expr.relined_relined f g, Expr.allRelined_allRelined f g]

@[simp] theorem Expr.allRelined_allRelined (f g : Token → Int) (es : List Expr) :
    Expr.allRelined g (Expr.allRelined f es) = Expr.allRelined (thenLine f g) es := by
  cases es with
  | nil => rfl
  | cons e es =>
    simp [Expr.allRelined, Expr.relined_relined f g e, Expr.allRelined_allRelined f g es]

end

mutual

@[simp] theorem Expr.relined_line (e : Expr) : e.relined Token.line = e := by
  cases e with
  | call callee paren arguments =>
    simp [Expr.relined, Expr.relined_line callee, Expr.allRelined_line arguments]
  | assign name value => simp [Expr.relined, Expr.relined_line value]
  | binary left operator right =>
    simp [Expr.relined, Expr.relined_line left, Expr.relined_line right]
  | grouping inner => simp [Expr.relined, Expr.relined_line inner]
  | logical left operator right =>
    simp [Expr.relined, Expr.relined_line left, Expr.relined_line right]
  | unary operator operand => simp [Expr.relined, Expr.relined_line operand]
  | literal value => rfl
  | «variable» name => rfl

@[simp] theorem Expr.allRelined_line (es : List Expr) : Expr.allRelined Token.line es = es := by
  cases es with
  | nil => rfl
  | cons e es => simp [Expr.allRelined, Expr.relined_line e, Expr.allRelined_line es]

end

mutual

@[simp] theorem Stmt.relined_relined (f g : Token → Int) (s : Stmt) :
    (s.relined f).relined g = s.relined (thenLine f g) := by
  cases s with
  | block body => simp [Stmt.relined, Stmt.allRelined_allRelined f g body]
  | function name parameters body =>
    simp [Stmt.relined, Stmt.allRelined_allRelined f g body]
  | branch condition yes no =>
    cases no with
    | none => simp [Stmt.relined, Stmt.relined_relined f g yes]
    | some no =>
      simp [Stmt.relined, Stmt.relined_relined f g yes, Stmt.relined_relined f g no]
  | loop condition body => simp [Stmt.relined, Stmt.relined_relined f g body]
  | returnFrom keyword value => cases value <;> simp [Stmt.relined]
  | declare name initializer => cases initializer <;> simp [Stmt.relined]
  | _ => simp [Stmt.relined]

@[simp] theorem Stmt.allRelined_allRelined (f g : Token → Int) (ss : List Stmt) :
    Stmt.allRelined g (Stmt.allRelined f ss) = Stmt.allRelined (thenLine f g) ss := by
  cases ss with
  | nil => rfl
  | cons s ss =>
    simp [Stmt.allRelined, Stmt.relined_relined f g s, Stmt.allRelined_allRelined f g ss]

end

mutual

@[simp] theorem Stmt.relined_line (s : Stmt) : s.relined Token.line = s := by
  cases s with
  | block body => simp [Stmt.relined, Stmt.allRelined_line body]
  | function name parameters body => simp [Stmt.relined, Stmt.allRelined_line body]
  | branch condition yes no =>
    cases no with
    | none => simp [Stmt.relined, Stmt.relined_line yes]
    | some no => simp [Stmt.relined, Stmt.relined_line yes, Stmt.relined_line no]
  | loop condition body => simp [Stmt.relined, Stmt.relined_line body]
  | returnFrom keyword value => cases value <;> simp [Stmt.relined]
  | declare name initializer => cases initializer <;> simp [Stmt.relined]
  | _ => simp [Stmt.relined]

@[simp] theorem Stmt.allRelined_line (ss : List Stmt) : Stmt.allRelined Token.line ss = ss := by
  cases ss with
  | nil => rfl
  | cons s ss => simp [Stmt.allRelined, Stmt.relined_line s, Stmt.allRelined_line ss]

end

end Lox
