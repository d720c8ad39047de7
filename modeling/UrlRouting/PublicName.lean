import UrlRouting.Text.Quoted

/-!
The names that the package offers at its top level, each with the module that it lives in.
-/

namespace UrlRouting

structure PublicName where
  name : Text
  home : Text
deriving DecidableEq

namespace PublicName

def package : Text := "pathrule"

def within (home : Text) (names : List Text) : List PublicName :=
  names.map fun name ↦ ⟨name, package ++ '.' :: home⟩

def all : List PublicName :=
  within "routing.router" ["Router"] ++
  within "routing.rule" ["Rule", "RuleGroup"] ++
  within "config" ["RouterConfig"] ++
  within "http.request" ["Request"] ++
  within "routing.dispatch"
    ["ArrayCallbackDispatch", "CallbackDispatch", "ControllerDispatch", "Dispatch", "DispatchKind",
      "MethodDispatch"] ++
  within "errors"
    ["ConfigurationError", "HTTPError", "MethodNotAllowed", "NotFound", "PathruleError"]

def find? (name : Text) : Option PublicName := all.find? fun p ↦ p.name == name

def unknown (name : Text) : Text :=
  "module ".toList ++ Text.quoted package ++ " has no attribute ".toList ++ Text.quoted name

end PublicName

end UrlRouting
