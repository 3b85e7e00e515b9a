import AssignLang.Text.Quoted

namespace AssignLang

inductive Kind where
  | equals
  | plus
  | minus
  | star
  | slash
  | lparen
  | rparen
  | semicolon
  | number
  | name
  | eof
  | any
  | empty
  deriving DecidableEq

namespace Kind

def all : List Kind :=
  [equals,plus,minus,star,slash,lparen,rparen,semicolon,number,name,eof,any,empty]

def code : Kind → Text
  | equals => "EQ".toList
  | plus => "PLUS".toList
  | minus => "MINUS".toList
  | star => "STAR".toList
  | slash => "SLASH".toList
  | lparen => "LRB".toList
  | rparen => "RRB".toList
  | semicolon => "SEMICOLON".toList
  | number => "NUM".toList
  | name => "ID".toList
  | eof => "EOF".toList
  | any => "ANY".toList
  | empty => "EMPTY".toList

def ofCode? (t : Text) : Option Kind := all.find? (fun k => k.code = t)

/-- The text of a token of which no more than the kind is known. -/
def text : Kind → Text
  | equals => ['=']
  | plus => ['+']
  | minus => ['-']
  | star => ['*']
  | slash => ['/']
  | lparen => ['(']
  | rparen => [')']
  | semicolon => [';']
  | number => "num".toList
  | name => "id".toList
  | eof => "EOF".toList
  | any => "ANY".toList
  | empty => "EMPTY".toList

/-- Kinds that many texts belong to, or none. -/
def isClass : Kind → Bool
  | number | name | eof | any | empty => true
  | _ => false

def noun : Kind → Text
  | name => "variable".toList
  | number => "number".toList
  | eof => "end of input".toList
  | any => "token".toList
  | empty => "nothing".toList
  | k => k.text.quote

def withArticle : Kind → Text
  | eof => "the ".toList ++ eof.noun
  | any => "any ".toList ++ any.noun
  | empty => empty.noun
  | k => "a ".toList ++ k.noun

end Kind
end AssignLang
