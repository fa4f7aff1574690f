namespace ClassLang.Assoc

variable {κ ν : Type} [DecidableEq κ]

def put (k : κ) (v : ν) : List (κ × ν) → List (κ × ν)
  | [] => [(k, v)]
  | (k', v') :: rest => if k' = k then (k, v) :: rest else (k', v') :: put k v rest

def merge (table more : List (κ × ν)) : List (κ × ν) := more.foldl (fun t (k, v) => put k v t) table

end ClassLang.Assoc
