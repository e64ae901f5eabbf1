import LuaMinifier.Ast

/-!
The occurrences of a tree, in the order in which they stand in the source, and replacing them one after another
while a state is carried along in that order.
-/

namespace LuaMinifier

variable {ι κ σ : Type}

def Parameters.mapM (replace : ι → StateM σ κ) (parameters : Parameters ι) : StateM σ (Parameters κ) :=
  return ⟨← parameters.names.mapM replace, parameters.vararg⟩

def FunctionName.mapM (replace : ι → StateM σ κ) (name : FunctionName ι) : StateM σ (FunctionName κ) :=
  return ⟨← replace name.root, name.fields, name.method⟩

mutual

def Expr.occurrences : Expr ι → List ι
  | .identifier _ occurrence => [occurrence]
  | .literal .. => []
  | .binary _ _ left right => left.occurrences ++ right.occurrences
  | .unary _ _ operand => operand.occurrences
  | .call _ callee arguments => callee.occurrences ++ Expr.occurrencesAll arguments
  | .callTable _ callee _ fields => callee.occurrences ++ Field.occurrencesAll fields
  | .callString _ callee _ _ => callee.occurrences
  | .index _ base key => base.occurrences ++ key.occurrences
  | .member _ base _ _ => base.occurrences
  | .function _ parameters body => parameters.names ++ body.occurrences
  | .table _ fields => Field.occurrencesAll fields

def Expr.occurrencesAll : List (Expr ι) → List ι
  | [] => []
  | expression :: rest => expression.occurrences ++ Expr.occurrencesAll rest

def Field.occurrences : Field ι → List ι
  | .keyed key value => key.occurrences ++ value.occurrences
  | .named _ value => value.occurrences
  | .item value => value.occurrences

def Field.occurrencesAll : List (Field ι) → List ι
  | [] => []
  | field :: rest => field.occurrences ++ Field.occurrencesAll rest

def Stat.occurrences : Stat ι → List ι
  | .assign _ targets values => Expr.occurrencesAll targets ++ Expr.occurrencesAll values
  | .localVars _ names values => names ++ Expr.occurrencesAll values
  | .call _ call => call.occurrences
  | .cond _ condition body rest => condition.occurrences ++ body.occurrences ++ rest.occurrences
  | .whileLoop _ condition body => condition.occurrences ++ body.occurrences
  | .doBlock _ body => body.occurrences
  | .breakLoop _ => []
  | .repeatLoop _ body condition => body.occurrences ++ condition.occurrences
  | .function _ name parameters body => name.root :: parameters.names ++ body.occurrences
  | .localFunction _ name parameters body => name :: parameters.names ++ body.occurrences
  | .numericFor _ counter first limit none body =>
    counter :: first.occurrences ++ limit.occurrences ++ body.occurrences
  | .numericFor _ counter first limit (some step) body =>
    counter :: first.occurrences ++ limit.occurrences ++ step.occurrences ++ body.occurrences
  | .genericFor _ names iterators body => names ++ Expr.occurrencesAll iterators ++ body.occurrences
  | .label .. => []
  | .goto .. => []

def Else.occurrences : Else ι → List ι
  | .none => []
  | .otherwise _ body => body.occurrences
  | .elseif _ condition body rest => condition.occurrences ++ body.occurrences ++ rest.occurrences

def Block.occurrences : Block ι → List ι
  | .nil => []
  | .ret _ values => Expr.occurrencesAll values
  | .cons head tail => head.occurrences ++ tail.occurrences

end

mutual

def Expr.mapM (replace : ι → StateM σ κ) : Expr ι → StateM σ (Expr κ)
  | .identifier site occurrence => return .identifier site (← replace occurrence)
  | .literal site kind raw => return .literal site kind raw
  | .binary site operator left right => return .binary site operator (← left.mapM replace) (← right.mapM replace)
  | .unary site operator operand => return .unary site operator (← operand.mapM replace)
  | .call site callee arguments => return .call site (← callee.mapM replace) (← Expr.mapAllM replace arguments)
  | .callTable site callee position fields =>
    return .callTable site (← callee.mapM replace) position (← Field.mapAllM replace fields)
  | .callString site callee position raw => return .callString site (← callee.mapM replace) position raw
  | .index site base key => return .index site (← base.mapM replace) (← key.mapM replace)
  | .member site base access name => return .member site (← base.mapM replace) access name
  | .function site parameters body =>
    return .function site (← parameters.mapM replace) (← body.mapM replace)
  | .table site fields => return .table site (← Field.mapAllM replace fields)

def Expr.mapAllM (replace : ι → StateM σ κ) : List (Expr ι) → StateM σ (List (Expr κ))
  | [] => return []
  | expression :: rest => return (← expression.mapM replace) :: (← Expr.mapAllM replace rest)

def Field.mapM (replace : ι → StateM σ κ) : Field ι → StateM σ (Field κ)
  | .keyed key value => return .keyed (← key.mapM replace) (← value.mapM replace)
  | .named name value => return .named name (← value.mapM replace)
  | .item value => return .item (← value.mapM replace)

def Field.mapAllM (replace : ι → StateM σ κ) : List (Field ι) → StateM σ (List (Field κ))
  | [] => return []
  | field :: rest => return (← field.mapM replace) :: (← Field.mapAllM replace rest)

def Stat.mapM (replace : ι → StateM σ κ) : Stat ι → StateM σ (Stat κ)
  | .assign position targets values =>
    return .assign position (← Expr.mapAllM replace targets) (← Expr.mapAllM replace values)
  | .localVars position names values =>
    return .localVars position (← names.mapM replace) (← Expr.mapAllM replace values)
  | .call position call => return .call position (← call.mapM replace)
  | .cond position condition body rest =>
    return .cond position (← condition.mapM replace) (← body.mapM replace) (← rest.mapM replace)
  | .whileLoop position condition body =>
    return .whileLoop position (← condition.mapM replace) (← body.mapM replace)
  | .doBlock position body => return .doBlock position (← body.mapM replace)
  | .breakLoop position => return .breakLoop position
  | .repeatLoop position body condition =>
    return .repeatLoop position (← body.mapM replace) (← condition.mapM replace)
  | .function position name parameters body =>
    return .function position (← name.mapM replace) (← parameters.mapM replace) (← body.mapM replace)
  | .localFunction position name parameters body =>
    return .localFunction position (← replace name) (← parameters.mapM replace) (← body.mapM replace)
  | .numericFor position counter first limit none body =>
    return .numericFor position (← replace counter) (← first.mapM replace) (← limit.mapM replace) none
      (← body.mapM replace)
  | .numericFor position counter first limit (some step) body =>
    return .numericFor position (← replace counter) (← first.mapM replace) (← limit.mapM replace)
      (some (← step.mapM replace)) (← body.mapM replace)
  | .genericFor position names iterators body =>
    return .genericFor position (← names.mapM replace) (← Expr.mapAllM replace iterators) (← body.mapM replace)
  | .label position name => return .label position name
  | .goto position name => return .goto position name

def Else.mapM (replace : ι → StateM σ κ) : Else ι → StateM σ (Else κ)
  | .none => return .none
  | .otherwise position body => return .otherwise position (← body.mapM replace)
  | .elseif position condition body rest =>
    return .elseif position (← condition.mapM replace) (← body.mapM replace) (← rest.mapM replace)

def Block.mapM (replace : ι → StateM σ κ) : Block ι → StateM σ (Block κ)
  | .nil => return .nil
  | .ret position values => return .ret position (← Expr.mapAllM replace values)
  | .cons head tail => return .cons (← head.mapM replace) (← tail.mapM replace)

end

end LuaMinifier
