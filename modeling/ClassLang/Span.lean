namespace ClassLang

structure Span where
  start : Nat
  stop : Nat
deriving DecidableEq, Repr, Inhabited

def Span.cover (a b : Span) : Span := ⟨min a.start b.start, max a.stop b.stop⟩

end ClassLang
