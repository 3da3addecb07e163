/-
  Layout-aware LR toolkit — parsers as host code.

  A grammar becomes a module of the host language: the tables of its automaton,
  a type with a variant for each nonterminal that has a type, and the actions.
  In an action, `$1`, `$2`, … stand for the values of the body and `$0` for the
  value of the head.

  * `HostError`: what is wrong with the code in a grammar;
  * `tablesText`, `configText`, `valueTypeText`, `reducerText`: the parts of the
    module;
  * `Automaton.source`: the module.
-/
import LayoutLR.Automaton.Table
import LayoutLR.Host.Fragment

namespace LayoutLR

open Text Host

/-! ## Errors -/

/-- What is wrong with the code in a grammar. -/
inductive HostError where
  | header
  /-- The name of a nonterminal with a type is no name of the host language. -/
  | variant (name : String)
  | valueType (name : String)
  | action (prod line : Nat)
deriving DecidableEq, Repr

/-- The message about an error. -/
def HostError.message (e : HostError) : String :=
  let fault := "LexError \x7b span: Span \x7d"
  match e with
  | .header => s!"header code is not valid Rust: {fault}"
  | .variant name => s!"{quote name.toList} cannot name a variant"
  | .valueType name => s!"value type `{name}` is not a valid Rust type: {fault}"
  | .action prod line =>
    s!"line {line}: action of production {prod} is not valid Rust: {fault}"

namespace Host

/-- The text of a fragment, or the given error. -/
def fragmentOr (e : HostError) (cs : List Char) : Except HostError String :=
  match readFragment? cs with
  | some ps => .ok (fragmentText ps)
  | none => .error e

/-- Text in curly brackets. -/
def block (s : String) : String :=
  "\x7b " ++ s ++ " \x7d"

/-- Values in square brackets. -/
def arrayText (items : List String) : String :=
  "[" ++ ", ".intercalate items ++ "]"

/-- A truth value. -/
def flagText (b : Bool) : String :=
  if b then "true" else "false"

/-! ## Tables -/

/-- The transitions of a state. -/
def goToText (i : Nat) (r : Row) : String :=
  let entry (e : Nat × Nat) := "lrtide::Goto " ++ block s!"sym: {e.1}, state: {e.2}"
  s!"static GOTO_{i}: [lrtide::Goto; {r.goTo.size}] = " ++
    arrayText (r.goTo.entries.map entry) ++ ";\n"

/-- The number of a production, if there is one. -/
def optionText : Option Nat → String
  | some n => s!"Some({n})"
  | none => "None"

/-- A state. -/
def rowText (i : Nat) (r : Row) : String :=
  let size := (r.reduce.map Reduction.size).getD 0
  let sym := (r.reduce.map Reduction.sym).getD 0
  let newlineOnly := (r.reduce.map Reduction.newlineOnly).getD false
  "lrtide::State " ++ block (s!"go_to: &GOTO_{i}, " ++
    s!"reduce_prod: {optionText (r.reduce.map Reduction.prod)}, " ++
    s!"reduce_size: {size}, reduce_sym: {sym}, " ++
    s!"starts_line: {flagText r.startsLine}, newline_only: {flagText newlineOnly}, " ++
    s!"min_prefix: {r.minPrefix},")

/-- An array of texts. -/
def stringsText (name : String) (items : List String) : String :=
  s!"pub static {name}: [&str; {items.length}] = " ++ arrayText (items.map Text.literal) ++ ";\n"

/-- The tables of a parser. -/
def tablesText (t : Table) : String :=
  stringsText "KNOWN" t.known.toList ++ stringsText "NAMES" t.names.toList ++
    String.join (t.rows.mapIdx goToText).toList ++
    s!"pub static STATES: [lrtide::State<'static>; {t.rows.size}] = " ++
    arrayText (t.rows.mapIdx rowText).toList ++ ";\n"

/-- The configuration of the tokens. -/
def configText (t : Table) : String :=
  "pub fn token_config() -> lrtide::TokenConfig<'static> " ++ block ("lrtide::TokenConfig " ++
    block (s!"ignored: lrtide::scan::Ignored::from_bits_truncate({t.ignored.bits}u32), " ++
      "known: &KNOWN, ..lrtide::TokenConfig::default()")) ++ "\n"

/-! ## Values -/

/-- The name of the variant of a nonterminal; three names are taken. -/
def variantName (s : Symbol) : String :=
  if ["Token", "Error", "None"].contains s.name then s.name ++ "_" else s.name

/-- The type of the values of a nonterminal. -/
def typeText (t : ValueType) : Except HostError String := do
  let inner ← fragmentOr (.valueType t.name) t.name.toList
  return match t with
    | .boxed _ => s!"Box<{inner}>"
    | .plain _ => inner

/-- The variant of a nonterminal with a type. -/
def variantText (s : Symbol) (t : ValueType) : Except HostError String := do
  unless isIdentifier s.name.toList do throw (.variant s.name)
  let type ← typeText t
  return s!"{variantName s}({type}), "

/-- The type of all values. -/
def valueTypeText (g : Grammar) : Except HostError String := do
  let variants ← (g.symbols.toList.filter (·.kind == .nonterminal)).mapM fun s =>
    match s.valueType with
    | some t => variantText s t
    | none => pure ""
  return "#[derive(Debug)] pub enum Value<'a> " ++
    block ("Token(lrtide::Token<'a>), Error(lrtide::Token<'a>), None, " ++
      String.join variants) ++ "\n"

/-! ## Actions -/

/-- The name of the value at a position of a production. -/
def valueName (pos : Nat) : String :=
  s!"__lr_{pos}"

/-- An action in which every dollar sign before a digit was replaced, so that the number names
    a value. -/
def withValueNames : List Char → List Char
  | [] => []
  | c :: cs =>
    if c = '$' ∧ (cs.head?.map isDecimalDigit).getD false = true then
      "__lr_".toList ++ withValueNames cs
    else c :: withValueNames cs

/-- Takes the next value of the body: a value of its own type, a token, or whatever it is. -/
def bindingText (pos : Nat) (s : Symbol) : String :=
  let value (taken other : String) :=
    "match __body.next() " ++ block s!"{taken}, _ => {other},"
  s!"let mut {valueName pos} = " ++
    (if s.valueType.isSome && s.kind == .nonterminal then
      value s!"Some(Value::{variantName s}(value)) => value" "Default::default()"
    else if s.kind == .terminal then
      value "Some(Value::Token(token)) | Some(Value::Error(token)) => token"
        "lrtide::Token::synthetic(lrtide::TokenKind::Error, 0, 0)"
    else "__body.next()") ++ "; "

/-- The value of a production without an action: a single value of the same type is passed on. -/
def passText (head : Symbol) (body : List Symbol) : String :=
  match head.valueType with
  | none => "Value::None"
  | some t =>
    let variant := variantName head
    match body with
    | [s] =>
      if s.valueType = some t then
        let passed := s!"Some(Value::{variantName s}(value)) => Value::{variant}(value)"
        "match __body.next() " ++ block s!"{passed}, _ => Value::{variant}(Default::default()),"
      else s!"Value::{variant}(Default::default())"
    | _ => s!"Value::{variant}(Default::default())"

/-- The value of a production with an action. -/
def actionText (head : Symbol) (body : List Symbol) (code : String) : Except HostError String := do
  let bindings := String.join (body.mapIdx fun i s => bindingText (i + 1) s)
  match head.valueType with
  | some t =>
    let type ← typeText t
    return bindings ++ s!"let mut {valueName 0}: {type} = Default::default(); " ++ block code ++
      s!" Value::{variantName head}({valueName 0})"
  | none => return bindings ++ block code ++ " Value::None"

/-- The branch of a production. -/
def branchText (g : Grammar) (i : Nat) (p : Production) : Except HostError String := do
  let symbol (s : Nat) : Symbol := g.symbols[s]?.getD default
  let head := symbol p.head
  let body := p.body.map symbol
  let value ← match p.action with
    | none => pure (passText head body)
    | some action => do
      let code ← fragmentOr (.action i p.actionLine) (withValueNames action)
      actionText head body code
  return s!"{i} => " ++ block value ++ "\n"

/-- The actions of all productions but the first. -/
def reducerText (g : Grammar) : Except HostError String := do
  let branches ← ((g.productions.mapIdx fun i p => (i, p)).toList.drop 1).mapM fun e =>
    branchText g e.1 e.2
  let method (name arguments body : String) :=
    s!"fn {name}(&mut self, {arguments}) -> Value<'a> " ++ block body ++ "\n"
  return "#[derive(Debug, Default)] pub struct Reducer;\n" ++
    "impl<'a> lrtide::Actions<'a> for Reducer " ++ block ("type Value = Value<'a>;\n" ++
      method "token" "token: &lrtide::Token<'a>" "Value::Token(*token)" ++
      method "error" "token: &lrtide::Token<'a>" "Value::Error(*token)" ++
      "#[allow(unused_mut, unused_variables)] " ++
      method "reduce" "prod: usize, body: Vec<Value<'a>>"
        ("let mut __body = body.into_iter(); match prod " ++
          block (String.join branches ++ "_ => Value::None,"))) ++ "\n"

end Host

/-! ## The module -/

/-- The module of host code for an automaton, after the code of `header`. -/
def Automaton.source (a : Automaton) (header : List Char) : Except HostError String := do
  let header ← fragmentOr .header header
  let values ← valueTypeText a.grammar
  let reducer ← reducerText a.grammar
  return header ++ "\n" ++ tablesText a.table ++ configText a.table ++ values ++ reducer

end LayoutLR
