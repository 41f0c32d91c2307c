import Mathlib.Data.List.DropRight
import RxVision.Lib.Text
import RxVision.Replay.Interceptor

/-!
# Replay routes as text (`replay-routes.ts`)

`REPLAY_ROUTES` names a route by its method and its segments; the code names it by a text, and reads
the texts of requests in two ways. `isReplayRoute` reads past the API prefix, the name of a
parameter, trailing slashes and the case of the method; the kind that `begin` stores is the text
itself, cut to 120 units, and `replayKinds` builds the texts the order check looks for from the
list. `storedKind_mem_iff` says for which texts the two agree.

A string is its UTF-16 code units. A method is a token of HTTP, so its upper case is the
one of ASCII.
-/

namespace RxVision

namespace RouteText

def slash : UInt16 := 47
def colon : UInt16 := 58
def space : UInt16 := 32

/-- A character of an HTTP token. -/
def isTchar (u : UInt16) :
    Bool := 33 ≤ u && u ≤ 126 && !(text "\"(),/:;<=>?@[\\]\x7b\x7d").contains u

/-- The method of a request. -/
structure HttpMethod where
  units : Units
  token : ∀ u ∈ units, isTchar u = true

/-- `method.toUpperCase()`. -/
def HttpMethod.toUpperCase (method : HttpMethod) : Units := method.units.map upper

/-- `REPLAY_ROUTES`, as the source writes them. -/
def REPLAY_ROUTES : List Units := [
  text "POST /activity/start-day",
  text "POST /activity/end-day",
  text "POST /breaks/start",
  text "POST /breaks/end",
  text "POST /breaks/quick/start",
  text "POST /breaks/:id/pause",
  text "POST /breaks/:id/resume",
  text "POST /breaks/skip",
  text "POST /breaks/:id/comment",
  text "POST /meetings/start",
  text "POST /meetings/past",
  text "POST /meetings/:id/end",
  text "POST /away",
  text "POST /away/unexplained",
  text "POST /presence/start",
  text "POST /presence/end"]

/-- The text of a route. -/
def ofRoute (route : Route) : Units :=
  text route.method ++ [space] ++ route.path.flatMap fun segment => slash :: text segment

/-- The texts are the ones of the routes the server model names by their segments. -/
theorem REPLAY_ROUTES_eq : REPLAY_ROUTES = RxVision.REPLAY_ROUTES.map ofRoute := by decide +kernel

/-! ## Reading a route -/

/-- `PREFIX`: the API prefix `/api/v<digits>` in front of a slash, or nothing. -/
def apiPrefix (routePath : Units) : Units :=
  let digits := (routePath.drop 6).takeWhile isDigit
  if (text "/api/v").isPrefixOf routePath && !digits.isEmpty &&
      (routePath.drop (6 + digits.length)).head? = some slash then
    text "/api/v" ++ digits
  else []

/-- After a slash: a colon and at least one unit that is no slash. -/
def startsParam : Units → Bool
  | c :: u :: _ => c = colon && u ≠ slash
  | _ => false

/-- `.replace(/\/:[^/]+/g, '/:id')`; `inParam` while the name of a parameter is passed over. -/
def paramsToId (inParam : Bool) : Units → Units
  | [] => []
  | u :: rest =>
    if inParam && u ≠ slash then paramsToId true rest
    else if u = slash && startsParam rest then text "/:id" ++ paramsToId true rest
    else u :: paramsToId false rest

/-- `x || '/'`. -/
def orSlash (path : Units) : Units := if path = [] then [slash] else path

/-- The path of `split`: without the API prefix, parameters named `:id`, no trailing slash. -/
def splitPath (routePath : Units) : Units :=
  let path := orSlash (routePath.drop (apiPrefix routePath).length)
  orSlash ((paramsToId false path).rdropWhile fun u => u = slash)

/-- `isReplayRoute`. -/
def isReplayRoute (method : HttpMethod) (routePath : Units) : Bool :=
  REPLAY_ROUTES.contains (method.toUpperCase ++ [space] ++ splitPath routePath)

/-- `r.split(' ')` of a replay route: its method and its path. -/
def methodAndPath (r : Units) : Units × Units :=
  (r.takeWhile fun u => u ≠ space, (r.dropWhile fun u => u ≠ space).drop 1)

/-- `replayKinds`. -/
def replayKinds (routePath : Units) : List Units :=
  REPLAY_ROUTES.map fun r =>
    (methodAndPath r).1 ++ [space] ++ apiPrefix routePath ++ (methodAndPath r).2

/-- The kind that `begin` stores for a request. -/
def storedKind (method : HttpMethod) (routePath : Units) : Units :=
  (method.units ++ [space] ++ routePath).take 120

/-! ## What the list holds -/

/-- The paths of the replay routes. -/
def replayPaths : List Units := REPLAY_ROUTES.map fun r => (methodAndPath r).2

/-- Every replay route is a `POST`. -/
theorem mem_REPLAY_ROUTES {r : Units} :
    r ∈ REPLAY_ROUTES ↔ ∃ p ∈ replayPaths, r = text "POST" ++ [space] ++ p := by
  have heq : REPLAY_ROUTES = replayPaths.map fun p => text "POST" ++ [space] ++ p := by
    decide +kernel
  rw [heq, List.mem_map]
  exact exists_congr fun p => and_congr_right fun _ => eq_comm

/-- A kind is `POST`, a blank and the path of a replay route under the API's prefix. -/
theorem mem_replayKinds {routePath kind : Units} : kind ∈ replayKinds routePath ↔
    ∃ p ∈ replayPaths, kind = text "POST" ++ [space] ++ (apiPrefix routePath ++ p) := by
  have hmethod : ∀ r ∈ REPLAY_ROUTES, (methodAndPath r).1 = text "POST" := by decide +kernel
  unfold replayKinds replayPaths
  simp only [List.mem_map, exists_exists_and_eq_and]
  refine exists_congr fun r => and_congr_right fun hr => ?_
  rw [hmethod r hr, eq_comm, List.append_assoc]

/-- The paths of the list are spelled as `split` leaves them. -/
theorem replayPaths_normal : ∀ p ∈ replayPaths,
    orSlash ((paramsToId false (orSlash p)).rdropWhile fun u => u = slash) = p := by
  decide +kernel

/-- The paths of the list start with a slash, and none starts like an API prefix. -/
theorem exists_cons_of_replayPath : ∀ p ∈ replayPaths,
    ∃ b c rest, p = slash :: b :: c :: rest ∧ ¬ (b = 97 ∧ c = 112) := by
  have h : ∀ p ∈ replayPaths, p.head? = some slash ∧ 3 ≤ p.length ∧
      ¬ (p[1]? = some 97 ∧ p[2]? = some 112) := by
    decide +kernel
  intro p hp
  obtain ⟨hhead, hlen, hne⟩ := h p hp
  match p, hhead, hlen, hne with
  | a :: b :: c :: rest, hhead, _, hne =>
    obtain rfl := Option.some.inj hhead
    exact ⟨b, c, rest, rfl, by simpa using hne⟩

/-! ## Prefix and path apart -/

variable {method : HttpMethod} {r p rest : Units}

/-- The API prefix is empty, or its literal part and digits. -/
theorem apiPrefix_cases (r : Units) : apiPrefix r = [] ∨
    ∃ digits, digits ≠ [] ∧ (∀ d ∈ digits, isDigit d) ∧ apiPrefix r = text "/api/v" ++ digits := by
  unfold apiPrefix
  dsimp only
  split
  · next h =>
    simp only [Bool.and_eq_true, Bool.not_eq_true', List.isEmpty_eq_false_iff] at h
    exact .inr ⟨_, h.1.2, fun d hd => List.mem_takeWhile_imp hd, rfl⟩
  · exact .inl rfl

/-- Digits in front of a path of the list, with the literal part before them, are the
prefix of the whole. -/
theorem apiPrefix_digits {digits : Units} (hp : p ∈ replayPaths) (hne : digits ≠ [])
    (hdigits : ∀ d ∈ digits, isDigit d) :
    apiPrefix (text "/api/v" ++ digits ++ (p ++ rest)) = text "/api/v" ++ digits := by
  obtain ⟨b, c, tail, rfl, -⟩ := exists_cons_of_replayPath p hp
  have hlen : (text "/api/v").length = 6 := by decide
  have hdrop : (text "/api/v" ++ digits ++ (slash :: b :: c :: tail ++ rest)).drop 6 =
      digits ++ (slash :: b :: c :: tail ++ rest) := by
    rw [List.append_assoc, List.drop_left' hlen]
  have htake : (digits ++ (slash :: b :: c :: tail ++ rest)).takeWhile isDigit = digits := by
    rw [List.takeWhile_append_of_pos hdigits]
    simp [slash, isDigit]
  have hpre : (text "/api/v").isPrefixOf
      (text "/api/v" ++ digits ++ (slash :: b :: c :: tail ++ rest)) = true := by
    rw [List.isPrefixOf_iff_prefix, List.append_assoc]
    exact List.prefix_append _ _
  have hhead : ((text "/api/v" ++ digits ++ (slash :: b :: c :: tail ++ rest)).drop
      (6 + digits.length)).head? = some slash := by
    rw [← List.drop_drop, hdrop, List.drop_left]
    rfl
  unfold apiPrefix
  simp only [hdrop, htake, hpre, hhead]
  simp [hne]

/-- A path of the list has no API prefix of its own, so an empty one is found. -/
theorem apiPrefix_replayPath (hp : p ∈ replayPaths) : apiPrefix (p ++ rest) = [] := by
  obtain ⟨b, c, tail, rfl, hne⟩ := exists_cons_of_replayPath p hp
  have hpre : (text "/api/v").isPrefixOf (slash :: b :: c :: tail ++ rest) = false := by
    rw [show text "/api/v" = slash :: 97 :: 112 :: [105, 47, 118] from by decide]
    simp only [List.cons_append, List.isPrefixOf_cons_cons, beq_self_eq_true, Bool.true_and]
    by_contra h
    simp only [Bool.not_eq_false, Bool.and_eq_true, beq_iff_eq] at h
    exact hne ⟨h.1.symm, h.2.1.symm⟩
  unfold apiPrefix
  simp only [hpre, Bool.false_and, Bool.false_eq_true, if_false]

/-- The prefix of a text stays the prefix in front of a path of the list. -/
theorem apiPrefix_append (hp : p ∈ replayPaths) :
    apiPrefix (apiPrefix r ++ (p ++ rest)) = apiPrefix r := by
  rcases apiPrefix_cases r with h | ⟨digits, hne, hdigits, h⟩
  · rw [h, List.nil_append]
    exact apiPrefix_replayPath hp
  · rw [h]
    exact apiPrefix_digits hp hne hdigits

/-- A prefix in front of a path of the list is split there. -/
theorem splitPath_append (hp : p ∈ replayPaths) : splitPath (apiPrefix r ++ p) = p := by
  have hpre : apiPrefix (apiPrefix r ++ (p ++ [])) = apiPrefix r := apiPrefix_append hp
  rw [List.append_nil] at hpre
  unfold splitPath
  rw [hpre, List.drop_left]
  exact replayPaths_normal p hp

/-- No token holds the space that ends the method, in capitals or not. -/
theorem HttpMethod.space_notMem (method : HttpMethod) : space ∉ method.toUpperCase := by
  intro h
  obtain ⟨u, hu, hup⟩ := List.mem_map.1 h
  have htoken := method.token u hu
  unfold isTchar at htoken
  simp only [Bool.and_eq_true, decide_eq_true_eq] at htoken
  unfold upper at hup
  split at hup
  · next hlower =>
    simp only [Bool.and_eq_true, decide_eq_true_eq, UInt16.le_iff_toNat_le] at hlower
    have hsub : (u - 32).toNat = u.toNat - 32 :=
      UInt16.toNat_sub_of_le _ _ (UInt16.le_iff_toNat_le.2 (le_trans (by decide) hlower.1))
    rw [hup] at hsub
    have h32 : space.toNat = 32 := rfl
    have h97 : (97 : UInt16).toNat = 97 := rfl
    omega
  · rw [hup] at htoken
    exact absurd htoken.1.1 (by decide)

/-- A text of a method, a space and a rest is taken apart at the space in one way only. -/
theorem append_space_inj {a b x y : Units} (ha : space ∉ a) (hb : space ∉ b)
    (h : a ++ [space] ++ x = b ++ [space] ++ y) : a = b ∧ x = y := by
  induction a generalizing b with
  | nil =>
    cases b with
    | nil => exact ⟨rfl, by simpa using h⟩
    | cons v b =>
      have hv : space = v := by
        have := congrArg List.head? h
        simpa using this
      exact absurd (hv ▸ .head _) hb
  | cons u a ih =>
    cases b with
    | nil =>
      have hu : u = space := by
        have := congrArg List.head? h
        simpa using this
      exact absurd (hu ▸ .head _) ha
    | cons v b =>
      simp only [List.cons_append, List.cons.injEq] at h
      obtain ⟨hab, hxy⟩ := ih (fun hm => ha (.tail _ hm)) (fun hm => hb (.tail _ hm)) h.2
      exact ⟨by rw [h.1, hab], hxy⟩

/-- A replay route is a `POST`, in whatever case, of a path of the list once the
prefix is cut off. -/
theorem isReplayRoute_iff : isReplayRoute method r ↔
    method.toUpperCase = text "POST" ∧ splitPath r ∈ replayPaths := by
  unfold isReplayRoute
  rw [List.contains_iff_mem, mem_REPLAY_ROUTES]
  constructor
  · rintro ⟨p, hp, h⟩
    obtain ⟨hm, rfl⟩ := append_space_inj method.space_notMem (by decide) h
    exact ⟨hm, hp⟩
  · rintro ⟨hm, hp⟩
    exact ⟨_, hp, by rw [hm]⟩

/-- The kinds a request is compared with depend on its API prefix only. -/
theorem replayKinds_congr {r' : Units} (h : apiPrefix r' = apiPrefix r) :
    replayKinds r' = replayKinds r := by
  unfold replayKinds
  rw [h]

/-- A text that `split` leaves as it is: prefix and path make it up. -/
def Normal (r : Units) : Prop := apiPrefix r ++ splitPath r = r

/-- What `begin` stores of a `POST`, in whatever case: the method and the first 115 units. -/
theorem storedKind_eq (h : method.toUpperCase = text "POST") :
    storedKind method r = method.units ++ [space] ++ r.take 115 := by
  have hlen : (method.units ++ [space]).length = 5 := by
    have := congrArg List.length h
    rw [HttpMethod.toUpperCase, List.length_map] at this
    rw [List.length_append, this]
    rfl
  unfold storedKind
  rw [List.take_append, hlen, List.take_of_length_le (by rw [hlen]; omega)]

/-- The kind stored for a replay route is found by the order check, from every replay route under
the same API prefix, exactly when the method is written in capitals and the first 115 units of the
text are a replay route that `split` leaves as it is. -/
theorem storedKind_mem_iff (method : HttpMethod) (r : Units) (h : isReplayRoute method r = true) :
    (storedKind method r ∈ replayKinds r ∧
      ∀ method' r', isReplayRoute method' r' = true → apiPrefix r' = apiPrefix r →
        storedKind method r ∈ replayKinds r') ↔
    method.units = text "POST" ∧ Normal (r.take 115) ∧ isReplayRoute method (r.take 115) := by
  obtain ⟨hpost, -⟩ := isReplayRoute_iff.1 h
  have hspace : space ∉ method.units := fun hm => absurd (method.token space hm) (by decide)
  rw [storedKind_eq hpost]
  constructor
  · rintro ⟨hmem, -⟩
    obtain ⟨p, hp, heq⟩ := mem_replayKinds.1 hmem
    obtain ⟨hmethod, htake⟩ := append_space_inj hspace (by decide) heq
    have hpre : apiPrefix (apiPrefix r ++ (p ++ [])) = apiPrefix r := apiPrefix_append hp
    rw [List.append_nil, ← htake] at hpre
    have hpath := splitPath_append (r := r) hp
    rw [← htake] at hpath
    refine ⟨hmethod, ?_, isReplayRoute_iff.2 ⟨hpost, hpath ▸ hp⟩⟩
    rw [Normal, hpre, hpath, htake]
  · rintro ⟨hmethod, hnormal, hroute⟩
    obtain ⟨-, hp⟩ := isReplayRoute_iff.1 hroute
    -- the prefix of the whole text is the one of its first 115 units
    have hpre : apiPrefix r = apiPrefix (r.take 115) := by
      have : apiPrefix (apiPrefix (r.take 115) ++ (splitPath (r.take 115) ++ r.drop 115)) =
          apiPrefix (r.take 115) := apiPrefix_append hp
      rwa [← List.append_assoc, hnormal, List.take_append_drop] at this
    have hmem : method.units ++ [space] ++ r.take 115 ∈ replayKinds r :=
      mem_replayKinds.2 ⟨_, hp, by rw [hmethod, hpre, hnormal]⟩
    exact ⟨hmem, fun method' r' _ hsame => by rwa [replayKinds_congr hsame]⟩

/-- `POST` consists of token characters. -/
theorem post_token : ∀ u ∈ text "POST", isTchar u = true :=
  List.all_eq_true.1 (by decide)

/-- `POST`. -/
def post : HttpMethod := ⟨text "POST", post_token⟩

/-- A pause route whose parameter is called `:breakId` is a replay route whose stored kind the order
check does not look for. -/
theorem storedKind_missed :
    isReplayRoute post (text "/api/v1/breaks/:breakId/pause") = true ∧
      storedKind post (text "/api/v1/breaks/:breakId/pause") ∉
        replayKinds (text "/api/v1/breaks/:breakId/pause") := by
  decide +kernel

/-- With the parameter called `:id` the kind is found. -/
theorem storedKind_found :
    storedKind post (text "/api/v1/breaks/:id/pause") ∈
      replayKinds (text "/api/v1/breaks/:id/pause") :=
  ((storedKind_mem_iff post (text "/api/v1/breaks/:id/pause") (by decide +kernel)).2
    ⟨rfl, by rw [Normal]; decide +kernel, by decide +kernel⟩).1

end RouteText

end RxVision
