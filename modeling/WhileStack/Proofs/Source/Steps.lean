import WhileStack.Source.Program

/-! What stands inside a statement: returns, and the steps of loops. -/
namespace WhileStack.Source.Stmt

def isDecl : Stmt → Bool
  | decl _ => true
  | _ => false

mutual

/-- A return stands somewhere in the statement. -/
def hasReturn : Stmt → Bool
  | ret _ _ => true
  | ifElse _ _ yes no => anyReturn yes || anyReturn no
  | whileDo _ _ body => anyReturn body
  | forDo _ _ _ step body => hasReturn step || anyReturn body
  | _ => false

def anyReturn : List Stmt → Bool
  | [] => false
  | s :: rest => hasReturn s || anyReturn rest

end

mutual

/-- Every loop inside the statement has a step of one kind. -/
def everyStep (P : Stmt → Bool) : Stmt → Bool
  | ifElse _ _ yes no => everyStepIn P yes && everyStepIn P no
  | whileDo _ _ body => everyStepIn P body
  | forDo _ _ _ step body => P step && everyStep P step && everyStepIn P body
  | _ => true

def everyStepIn (P : Stmt → Bool) : List Stmt → Bool
  | [] => true
  | s :: rest => everyStep P s && everyStepIn P rest

end

end WhileStack.Source.Stmt
