import ApiTypes.Schema.Basic

/-! The context of a generation: what a module may depend on while it renders.
The engine decides the packaging unless one is given. -/

namespace ApiTypes

/-- The runtime that a generated module is for. -/
inductive Engine where
  | deno
  | node
  deriving DecidableEq, Repr

/-- How packages are addressed: by a versioned URL, or by a package specifier. -/
inductive Packaging where
  | hosted
  | bare
  deriving DecidableEq, Repr

def Engine.text : Engine → String
  | deno => "deno"
  | node => "node"

def Engine.all : List Engine := [.deno, .node]

def Packaging.text : Packaging → String
  | hosted => "hosted"
  | bare => "bare"

def Packaging.all : List Packaging := [.hosted, .bare]

def Engine.defaultPackaging : Engine → Packaging
  | deno => .hosted
  | node => .bare

/-- The context; a package is listed once, at its first place and with its last
dependency. -/
structure Context (τ : Type) where
  apiVersion : τ
  dependencies : List (τ × Dependency τ)
  modulePath : τ
  engine : Engine
  packaging : Packaging

namespace Context

variable {τ : Type} [Label τ]

def insertDependency (d : Dependency τ) :
    List (τ × Dependency τ) → List (τ × Dependency τ)
  | [] => [(d.package, d)]
  | (key, old) :: rest =>
    if Label.same key d.package then (key, d) :: rest
    else (key, old) :: insertDependency d rest

def tableOf (ds : List (Dependency τ)) : List (τ × Dependency τ) :=
  ds.foldl (fun table d => insertDependency d table) []

def ofSchema (s : Schema τ) (modulePath : τ) (engine : Engine)
    (packaging : Option Packaging) : Except Error (Context τ) := do
  s.dependencies.forM fun d => Label.requireKey d.package
  return { apiVersion := s.apiVersion, dependencies := tableOf s.dependencies, modulePath, engine,
           packaging := packaging.getD engine.defaultPackaging }

/-- The version of a package, where a dependency gives one. -/
def versionOf (ctx : Context τ) (package : τ) : Except Error (Option τ) := do
  Label.requireKey package
  return (ctx.dependencies.find? fun e => Label.same e.1 package).bind fun e =>
    if Label.isNull e.2.version then none else some e.2.version

/-- The context as messages show it. -/
def describe (ctx : Context τ) : String :=
  "Context(api_version=" ++ Label.quoted ctx.apiVersion ++ ", module=" ++
    Label.quoted ctx.modulePath ++
    s!", engine={ctx.engine.text}, packaging={ctx.packaging.text})"

end Context

end ApiTypes
