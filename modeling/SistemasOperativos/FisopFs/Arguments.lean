import SistemasOperativos.FisopFs.Types

/-!
# The command line of fisopfs

`parse_args` and `main`. The array `argv` holds pointers, with NULL after the last argument. The two
options of the file system come with a value each; what is left of the command line goes to
`fuse_main`.
-/

namespace SistemasOperativos.FisopFs

/-- A string of the source. -/
def Cadena.literal (s : String) : Cadena :=
  s.toList.filterMap fun c ↦ if h : c.toUInt8 ≠ 0 then some ⟨c.toUInt8, h⟩ else none

def opcionArchivo : Cadena := .literal "--archivo-persistencia"
def opcionEspacio : Cadena := .literal "--max_espacio_fs"
def archivoPersistenciaDefault : Cadena := .literal "persitencia.fisopfs"
def maxEspacioDefault : UInt64 := 4294967296

/-! ## Numbers -/

def esEspacio (c : Caracter) : Bool := c.octeto = 32 ∨ 9 ≤ c.octeto ∧ c.octeto ≤ 13

def esDigito (c : Caracter) : Bool := 48 ≤ c.octeto ∧ c.octeto ≤ 57

/-- The sign of a number, and what follows it. -/
def signo : Cadena → Bool × Cadena
  | [] => (false, [])
  | c :: cs =>
    if c.octeto = 45 then (true, cs) else if c.octeto = 43 then (false, cs) else (false, c :: cs)

/-- `strtoull(s, NULL, 10)`. -/
def strtoull (s : Cadena) : UInt64 :=
  let (negativo, s) := signo (s.dropWhile esEspacio)
  let valor := (s.takeWhile esDigito).foldl (fun v c ↦ 10 * v + (c.octeto.toNat - 48)) 0
  if 2 ^ 64 ≤ valor then .ofNat (2 ^ 64 - 1)
  else if negativo then 0 - .ofNat valor else .ofNat valor

/-! ## Parsing -/

/-- The global variables that the options set. -/
structure Opciones where
  archivoPersistencia : Cadena
  maxEspacioFs : UInt64
deriving DecidableEq

/-- `argc`, the array `argv` and the options after `parse_args`. -/
structure Argumentos where
  argc : ℕ
  argv : List (Option Cadena)
  opciones : Opciones
deriving DecidableEq

/-- Sets the option of the source named `opcion`. -/
def Opciones.fija (op : Opciones) (opcion valor : Cadena) : Opciones :=
  if opcion = opcionArchivo then { op with archivoPersistencia := valor }
  else { op with maxEspacioFs := strtoull valor }

/-- The loop of `parse_args`. `contadorArgs` counts the pairs. -/
def parseArgsDesde (argc i contadorArgs : ℕ) (argv : List (Option Cadena)) (op : Opciones) :
    Except Fallo (ℕ × List (Option Cadena) × Opciones) :=
  if i < argc then
    match argv[i]? with
    | some (some a) =>
      if a = opcionArchivo ∨ a = opcionEspacio then
        match argv[i + 1]? with
        | some (some x) =>
          parseArgsDesde argc (i + 2) (contadorArgs + 1) ((argv.set i none).set (i + 1) none)
            (op.fija a x)
        | some none => .error .salida
        | none => .error .fueraDeRango
      else parseArgsDesde argc (i + 1) contadorArgs argv op
    | some none => .error .punteroNulo
    | none => .error .fueraDeRango
  else .ok (contadorArgs, argv, op)
termination_by argc - i

def parseArgs (argc : ℕ) (argv : List (Option Cadena)) : Except Fallo Argumentos := do
  let (contadorArgs, argv, op) ← parseArgsDesde argc 0 0 argv ⟨[], 0⟩
  let op := if op.maxEspacioFs = 0 then { op with maxEspacioFs := maxEspacioDefault } else op
  let op := if op.archivoPersistencia = [] then
    { op with archivoPersistencia := archivoPersistenciaDefault } else op
  return { argc := argc - contadorArgs * 2, argv, opciones := op }

/-- What `main` hands to `fuse_main`, or none where it only prints how it is used. -/
def main (argc : ℕ) (argv : List (Option Cadena)) : Except Fallo (Option Argumentos) :=
  if argc < 2 then .ok none else some <$> parseArgs argc argv

/-! ## Command lines -/

/-- What stands after the name of the program: a pair, or something for FUSE. -/
inductive Argumento where
  | par (opcion valor : Cadena) (esOpcion : opcion = opcionArchivo ∨ opcion = opcionEspacio)
  | resto (a : Cadena) (noOpcion : ¬(a = opcionArchivo ∨ a = opcionEspacio))

namespace Argumento

def esPar : Argumento → Bool
  | .par .. => true
  | .resto .. => false

/-- The strings of an argument. -/
def cadenas : Argumento → List Cadena
  | .par opcion valor _ => [opcion, valor]
  | .resto a _ => [a]

/-- What `parse_args` leaves of an argument. -/
def blanqueado : Argumento → List (Option Cadena)
  | .par .. => [none, none]
  | .resto a _ => [some a]

def fija (op : Opciones) : Argumento → Opciones
  | .par opcion valor _ => op.fija opcion valor
  | .resto .. => op

end Argumento

/-- The array of a command line, with NULL at its end. -/
def argvDe (programa : Cadena) (args : List Argumento) : List (Option Cadena) :=
  (programa :: args.flatMap Argumento.cadenas).map some ++ [none]

/-- A command line without its pairs. -/
def sinPares (args : List Argumento) : List Cadena :=
  (args.filter fun a ↦ !a.esPar).flatMap Argumento.cadenas

/-- Nothing for FUSE comes after a pair. -/
def ParesAlFinal (args : List Argumento) : Prop :=
  ∃ restos pares, args = restos ++ pares ∧ (∀ a ∈ restos, a.esPar = false) ∧
    ∀ a ∈ pares, a.esPar = true

/-! ## What parsing leaves -/

section Loop

variable (antes : List (Option Cadena)) {argc : ℕ} (contadorArgs : ℕ) (op : Opciones)

theorem parseArgsDesde_resto {a : Cadena} (h : ¬(a = opcionArchivo ∨ a = opcionEspacio))
    (despues : List (Option Cadena)) (hargc : antes.length < argc) :
    parseArgsDesde argc antes.length contadorArgs (antes ++ some a :: despues) op =
      parseArgsDesde argc (antes ++ [some a]).length contadorArgs (antes ++ [some a] ++ despues) op := by
  have hread : (antes ++ some a :: despues)[antes.length]? = some (some a) := by simp
  have happend : antes ++ some a :: despues = antes ++ [some a] ++ despues := by simp
  rw [parseArgsDesde, if_pos hargc, hread]
  simp only [if_neg h]
  rw [happend, List.length_append, List.length_singleton]

theorem parseArgsDesde_par {a x : Cadena} (h : a = opcionArchivo ∨ a = opcionEspacio)
    (despues : List (Option Cadena)) (hargc : antes.length < argc) :
    parseArgsDesde argc antes.length contadorArgs (antes ++ some a :: some x :: despues) op =
      parseArgsDesde argc (antes ++ [none, none]).length (contadorArgs + 1)
        (antes ++ [none, none] ++ despues) (op.fija a x) := by
  have hread : (antes ++ some a :: some x :: despues)[antes.length]? = some (some a) := by simp
  have hnext : (antes ++ some a :: some x :: despues)[antes.length + 1]? = some (some x) := by simp
  have hset : ((antes ++ some a :: some x :: despues).set antes.length none).set
      (antes.length + 1) none = antes ++ [none, none] ++ despues := by simp
  rw [parseArgsDesde, if_pos hargc, hread]
  simp only [if_pos h, hnext, hset]
  rw [List.length_append]
  rfl

/-- The loop blanks the pairs where they stand. -/
theorem parseArgsDesde_args (args : List Argumento) :
    ∀ (antes : List (Option Cadena)) (contadorArgs : ℕ) (op : Opciones),
      parseArgsDesde (antes.length + (args.flatMap Argumento.cadenas).length) antes.length contadorArgs
          (antes ++ ((args.flatMap Argumento.cadenas).map some ++ [none])) op =
        .ok (contadorArgs + (args.filter Argumento.esPar).length,
          antes ++ (args.flatMap Argumento.blanqueado ++ [none]), args.foldl Argumento.fija op) := by
  induction args with
  | nil =>
    intro antes contadorArgs op
    rw [parseArgsDesde, if_neg (by simp)]
    rfl
  | cons a args ih =>
    intro antes contadorArgs op
    have hpos : ∀ {k : ℕ}, antes.length < antes.length + (k + 1) :=
      fun {k} ↦ Nat.lt_add_of_pos_right (Nat.succ_pos k)
    cases a with
    | resto a h =>
      have hrest := ih (antes ++ [some a]) contadorArgs op
      rw [List.length_append, List.append_assoc, List.append_assoc, Nat.add_assoc] at hrest
      change parseArgsDesde (antes.length + ((args.flatMap Argumento.cadenas).length + 1)) _ _
        (antes ++ some a :: _) op = _
      rw [parseArgsDesde_resto antes contadorArgs op h _ hpos, Nat.add_comm _ 1, List.length_append,
        List.append_assoc]
      exact hrest
    | par a x h =>
      have hrest := ih (antes ++ [none, none]) (contadorArgs + 1) (op.fija a x)
      rw [List.length_append, List.append_assoc, List.append_assoc, Nat.add_assoc,
        Nat.add_assoc contadorArgs, Nat.add_comm 1 (args.filter _).length] at hrest
      change parseArgsDesde (antes.length + ((args.flatMap Argumento.cadenas).length + 1 + 1)) _ _
        (antes ++ some a :: some x :: _) op = _
      rw [parseArgsDesde_par antes contadorArgs op h _ hpos, Nat.add_assoc _ 1 1,
        Nat.add_comm _ (1 + 1), List.length_append, List.append_assoc, List.filter_cons_of_pos rfl]
      exact hrest

/-- What lies before the index of the loop stays. -/
theorem parseArgsDesde_before {i j contadorArgs : ℕ} {op : Opciones} {argv : List (Option Cadena)}
    {r : ℕ × List (Option Cadena) × Opciones}
    (h : parseArgsDesde argc i contadorArgs argv op = .ok r) (hj : j < i) : r.2.1[j]? = argv[j]? := by
  induction i, contadorArgs, argv, op using parseArgsDesde.induct argc with
  | case1 i n argv op hi a hread hop x hnext ih =>
    rw [parseArgsDesde, if_pos hi, hread] at h
    simp only [if_pos hop, hnext] at h
    rw [ih h (by omega), List.getElem?_set_ne (by omega), List.getElem?_set_ne (by omega)]
  | case2 i n argv op hi a hread hop hnext =>
    rw [parseArgsDesde, if_pos hi, hread] at h
    simp only [if_pos hop, hnext] at h
    cases h
  | case3 i n argv op hi a hread hop hnext =>
    rw [parseArgsDesde, if_pos hi, hread] at h
    simp only [if_pos hop, hnext] at h
    cases h
  | case4 i n argv op hi a hread hop ih =>
    rw [parseArgsDesde, if_pos hi, hread] at h
    simp only [if_neg hop] at h
    exact ih h (by omega)
  | case5 i n argv op hi hread =>
    rw [parseArgsDesde, if_pos hi, hread] at h
    cases h
  | case6 i n argv op hi hread =>
    rw [parseArgsDesde, if_pos hi, hread] at h
    cases h
  | case7 i n argv op hi =>
    rw [parseArgsDesde, if_neg hi] at h
    cases h
    rfl

end Loop

/-! ## Counting -/

section Count

variable {a : Argumento} {args : List Argumento}

theorem sinPares_cons_par (h : a.esPar = true) : sinPares (a :: args) = sinPares args := by
  rw [sinPares, List.filter_cons_of_neg (by rw [h]; decide)]
  rfl

theorem sinPares_cons_resto (h : a.esPar = false) :
    sinPares (a :: args) = a.cadenas ++ sinPares args := by
  rw [sinPares, List.filter_cons_of_pos (by rw [h]; rfl), List.flatMap_cons]
  rfl

/-- Each pair takes two places, and everything else one. -/
theorem length_sinPares (args : List Argumento) :
    (sinPares args).length + (args.filter Argumento.esPar).length * 2 =
      (args.flatMap Argumento.cadenas).length := by
  induction args with
  | nil => rfl
  | cons a args ih =>
    rw [List.flatMap_cons, List.length_append, ← ih]
    cases a with
    | par opcion valor h =>
      rw [sinPares_cons_par rfl, List.filter_cons_of_pos rfl, List.length_cons]
      change _ = 2 + _
      omega
    | resto a h =>
      rw [sinPares_cons_resto rfl, List.filter_cons_of_neg Bool.false_ne_true,
        List.length_append]
      omega

theorem sinPares_eq_nil_iff : sinPares args = [] ↔ ∀ a ∈ args, a.esPar = true := by
  induction args with
  | nil => exact iff_of_true rfl nofun
  | cons a args ih =>
    rw [List.forall_mem_cons, ← ih]
    cases a with
    | par opcion valor h =>
      rw [sinPares_cons_par rfl]
      exact (and_iff_right rfl).symm
    | resto a h =>
      rw [sinPares_cons_resto rfl]
      exact iff_of_false (List.cons_ne_nil _ _) fun h ↦ Bool.false_ne_true h.1

theorem ParesAlFinal.cons_resto_iff (h : a.esPar = false) :
    ParesAlFinal (a :: args) ↔ ParesAlFinal args := by
  constructor
  · rintro ⟨restos, pares, heq, hrestos, hpares⟩
    cases restos with
    | nil =>
      have hpar := hpares a (by rw [← List.nil_append pares, ← heq]; exact List.mem_cons_self)
      exact absurd (h.symm.trans hpar) Bool.false_ne_true
    | cons b restos =>
      obtain ⟨-, hrest⟩ := List.cons.inj heq
      exact ⟨restos, pares, hrest, fun c hc ↦ hrestos c (List.mem_cons_of_mem b hc), hpares⟩
  · rintro ⟨restos, pares, rfl, hrestos, hpares⟩
    refine ⟨a :: restos, pares, rfl, ?_, hpares⟩
    exact List.forall_mem_cons.mpr ⟨h, hrestos⟩

theorem ParesAlFinal.cons_par_iff (h : a.esPar = true) :
    ParesAlFinal (a :: args) ↔ ∀ b ∈ args, b.esPar = true := by
  constructor
  · rintro ⟨restos, pares, heq, hrestos, hpares⟩
    cases restos with
    | nil =>
      intro b hb
      exact hpares b (by rw [← List.nil_append pares, ← heq]; exact List.mem_cons_of_mem a hb)
    | cons b restos =>
      obtain ⟨rfl, -⟩ := List.cons.inj heq
      exact absurd ((hrestos a List.mem_cons_self).symm.trans h) Bool.false_ne_true
  · intro hall
    exact ⟨[], a :: args, rfl, nofun, List.forall_mem_cons.mpr ⟨h, hall⟩⟩

/-- The first places hold what is left exactly where no pair stands before it. -/
theorem take_blanqueado_iff (args : List Argumento) :
    (args.flatMap Argumento.blanqueado ++ [none]).take (sinPares args).length =
      (sinPares args).map some ↔ ParesAlFinal args := by
  induction args with
  | nil => exact iff_of_true rfl ⟨[], [], rfl, nofun, nofun⟩
  | cons a args ih =>
    cases a with
    | resto a h =>
      rw [sinPares_cons_resto rfl, ParesAlFinal.cons_resto_iff rfl, ← ih]
      change some a :: List.take _ _ = some a :: _ ↔ _
      rw [List.cons.injEq, and_iff_right rfl]
      rfl
    | par opcion valor h =>
      rw [sinPares_cons_par rfl, ParesAlFinal.cons_par_iff rfl, ← sinPares_eq_nil_iff]
      cases sinPares args with
      | nil => exact iff_of_true rfl rfl
      | cons x xs => exact iff_of_false nofun (List.cons_ne_nil x xs)

end Count

/-! ## The arguments that reach FUSE -/

/-- The command line is what it was without its pairs: the first `argc` places of `argv`, none of
them NULL. -/
def Argumentos.SinPares (r : Argumentos) (programa : Cadena) (args : List Argumento) : Prop :=
  r.argc = 1 + (sinPares args).length ∧
    r.argv.take r.argc = (programa :: sinPares args).map some

theorem parseArgs_ok {argc n : ℕ} {argv argv' : List (Option Cadena)} {op : Opciones}
    (h : parseArgsDesde argc 0 0 argv ⟨[], 0⟩ = .ok (n, argv', op)) :
    ∃ op', parseArgs argc argv = .ok ⟨argc - n * 2, argv', op'⟩ := by
  rw [parseArgs, h]
  exact ⟨_, rfl⟩

theorem parseArgs_inv {argc : ℕ} {argv : List (Option Cadena)} {r : Argumentos}
    (h : parseArgs argc argv = .ok r) :
    ∃ n op, parseArgsDesde argc 0 0 argv ⟨[], 0⟩ = .ok (n, r.argv, op) := by
  rw [parseArgs] at h
  cases hloop : parseArgsDesde argc 0 0 argv ⟨[], 0⟩ with
  | error e =>
    rw [hloop] at h
    cases h
  | ok t =>
    rw [hloop] at h
    cases h
    exact ⟨t.1, t.2.2, rfl⟩

/-- A program with the name of an option loses its own name. -/
theorem parseArgs_opcion {programa : Cadena} {args : List Argumento} {argc : ℕ} {r : Argumentos}
    (hprograma : programa = opcionArchivo ∨ programa = opcionEspacio) (hargc : 0 < argc)
    (h : parseArgs argc (argvDe programa args) = .ok r) : r.argv[0]? = some none := by
  obtain ⟨n, op, hloop⟩ := parseArgs_inv h
  rw [argvDe] at hloop
  cases hargs : args.flatMap Argumento.cadenas with
  | nil =>
    rw [hargs, parseArgsDesde, if_pos hargc] at hloop
    simp [hprograma] at hloop
  | cons x xs =>
    rw [hargs] at hloop
    have hturn := @parseArgsDesde_par [] argc 0 ⟨[], 0⟩ programa x hprograma (xs.map some ++ [none])
      hargc
    have hrest := hturn.symm.trans hloop
    rw [parseArgsDesde_before hrest (Nat.zero_lt_succ 1)]
    rfl

/-- With a program of another name the pairs are blanked, and `argc` counts what is left. -/
theorem parseArgs_argvDe {programa : Cadena}
    (hprograma : ¬(programa = opcionArchivo ∨ programa = opcionEspacio)) (args : List Argumento) :
    ∃ op, parseArgs (1 + (args.flatMap Argumento.cadenas).length) (argvDe programa args) =
      .ok ⟨1 + (sinPares args).length,
        some programa :: (args.flatMap Argumento.blanqueado ++ [none]), op⟩ := by
  have hloop := parseArgsDesde_args args [some programa] 0 ⟨[], 0⟩
  have hturn := parseArgsDesde_resto [] 0 ⟨[], 0⟩ hprograma
    ((args.flatMap Argumento.cadenas).map some ++ [none])
    (Nat.lt_add_right (args.flatMap Argumento.cadenas).length Nat.zero_lt_one)
  have hargc : 1 + (args.flatMap Argumento.cadenas).length -
      (0 + (args.filter Argumento.esPar).length) * 2 = 1 + (sinPares args).length := by
    rw [← length_sinPares args]
    omega
  rw [← hargc]
  exact parseArgs_ok (hturn.trans hloop)

/-- `parse_args` takes the pairs out of the command line exactly where they all stand at its end. -/
theorem parseArgs_sinPares_iff (programa : Cadena) (args : List Argumento) :
    (∃ r, parseArgs (1 + (args.flatMap Argumento.cadenas).length) (argvDe programa args) = .ok r ∧
      (args ≠ [] → main (1 + (args.flatMap Argumento.cadenas).length) (argvDe programa args) =
        .ok (some r)) ∧ r.SinPares programa args) ↔
      ¬(programa = opcionArchivo ∨ programa = opcionEspacio) ∧ ParesAlFinal args := by
  by_cases hprograma : programa = opcionArchivo ∨ programa = opcionEspacio
  · refine iff_of_false ?_ fun h ↦ h.1 hprograma
    rintro ⟨r, hparse, -, hargc, htake⟩
    have hzero := parseArgs_opcion hprograma (by omega) hparse
    have hfirst := congrArg (·[0]?) htake
    rw [hargc, List.getElem?_take_of_lt (by omega), hzero] at hfirst
    cases hfirst
  · rw [and_iff_right hprograma, ← take_blanqueado_iff]
    obtain ⟨op, hparse⟩ := parseArgs_argvDe hprograma args
    have htake : (some programa :: (args.flatMap Argumento.blanqueado ++ [none])).take
        (1 + (sinPares args).length) = some programa ::
          (args.flatMap Argumento.blanqueado ++ [none]).take (sinPares args).length := by
      rw [Nat.add_comm]
      rfl
    constructor
    · rintro ⟨r, hr, -, -, hresto⟩
      obtain rfl := Except.ok.inj (hparse.symm.trans hr)
      rw [htake] at hresto
      exact (List.cons.inj hresto).2
    · intro hresto
      refine ⟨_, hparse, fun hne ↦ ?_, rfl, ?_⟩
      · have hpos : 0 < (args.flatMap Argumento.cadenas).length := by
          cases args with
          | nil => exact absurd rfl hne
          | cons a args => cases a <;> exact Nat.succ_pos _
        rw [main, if_neg (by omega), hparse]
        rfl
      · rw [htake, hresto]
        rfl

/-- With the option before it the mount point is lost: `fisopfs --archivo-persistencia otro prueba`. -/
theorem parseArgs_pierde_montaje :
    ∃ programa args, ¬(programa = opcionArchivo ∨ programa = opcionEspacio) ∧
      ¬∃ r, parseArgs (1 + (args.flatMap Argumento.cadenas).length) (argvDe programa args) = .ok r ∧
        r.SinPares programa args := by
  have hprograma : ¬(Cadena.literal "fisopfs" = opcionArchivo ∨
      Cadena.literal "fisopfs" = opcionEspacio) := by decide +kernel
  have hmontaje : ¬(Cadena.literal "prueba" = opcionArchivo ∨
      Cadena.literal "prueba" = opcionEspacio) := by decide +kernel
  refine ⟨.literal "fisopfs", [.par opcionArchivo (.literal "otro") (.inl rfl),
    .resto (.literal "prueba") hmontaje], hprograma, ?_⟩
  rintro ⟨r, hr, -, hresto⟩
  obtain ⟨op, hparse⟩ := parseArgs_argvDe hprograma [.par opcionArchivo (.literal "otro") (.inl rfl),
    .resto (.literal "prueba") hmontaje]
  obtain rfl := Except.ok.inj (hparse.symm.trans hr)
  cases hresto

end SistemasOperativos.FisopFs
