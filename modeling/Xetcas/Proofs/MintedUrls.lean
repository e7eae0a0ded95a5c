import Xetcas.Routes.Lfs
import Xetcas.Routes.Reconstructions
import Xetcas.Routes.Router
import Xetcas.Server

namespace Xetcas.Proofs.MintedUrls
open Lib Routes
variable {config : Config} {state : AppState}

theorem publicBase_unslashed (config : Config) :
    config.publicBase.toList.getLast? ≠ some '/' := by
  rw [Config.publicBase, String.toList_ofList, List.getLast?_reverse]
  intro hslash
  have hdrop := List.head?_dropWhile_not (p := (· == '/')) (l := config.publicUrl.toList.reverse)
  rw [hslash] at hdrop
  simp at hdrop

section HashHex
variable {value : String}

/-- A character that is no hexadecimal digit is not in a hash. -/
theorem not_mem_hashHex (h : isHashHex value = true) {c : Char} {b : UInt8}
    (hc : String.utf8EncodeChar c = [b]) (hb : isLowerHexByte b = false) : c ∉ value.toList := by
  intro hmem
  simp only [isHashHex, Bool.and_eq_true, List.all_eq_true] at h
  have hbyte : b ∈ value.toUTF8.data.toList := by
    rw [utf8_toList]
    exact List.mem_flatMap.mpr ⟨c, hmem, by simp [hc]⟩
  rw [h.2 b hbyte] at hb
  cases hb

theorem hashHex_plain (h : isHashHex value = true) : PlainName value.toList := by
  have hdot : '.' ∉ value.toList := not_mem_hashHex h (b := 0x2e) (by decide) (by decide)
  refine ⟨?_, ?_, ?_, not_mem_hashHex h (b := 0x2f) (by decide) (by decide)⟩
  · intro hempty
    have hvalue : value = "" := String.toList_inj.mp hempty
    rw [hvalue] at h
    revert h
    decide
  · intro he
    exact hdot (by simp [he])
  · intro he
    exact hdot (by simp [he])

theorem decodeCapture_hashHex (h : isHashHex value = true) :
    decodeCapture value.toList = some value := by
  have hplain : ∀ b ∈ value.toUTF8.data.toList, b ≠ 0x25 := by
    rintro b hb rfl
    simp only [isHashHex, Bool.and_eq_true, List.all_eq_true] at h
    have hdigit := h.2 _ hb
    revert hdigit
    decide
  rw [decodeCapture, String.ofList_toList, percentDecode_plain hplain, fromUTF8_bytes]

end HashHex

def pathOf (names : List String) : String :=
  String.ofList ('/' :: relative (names.map String.toList))

/-- A path of plain names leads where its names match a route. -/
theorem dispatch_pathOf {method : Method} {names : List String} (r : Route)
    (raw : List (List Char)) {captured : List String} (hr : r ∈ router) (hne : names ≠ [])
    (hplain : ∀ name ∈ names, PlainName name.toList)
    (hmatch : captures r.pattern (names.map String.toList) = some raw)
    (hallows : r.allows method = true) (hextracts : r.handler.extractsPath = true)
    (hraw : raw.mapM decodeCapture = some captured) :
    dispatch method (pathOf names) = .call r.handler captured := by
  have hnames : (relative (names.map String.toList)).splitOn '/' = names.map String.toList := by
    refine splitOn_relative ?_ (by simpa using hne)
    intro name hname
    obtain ⟨s, hs, rfl⟩ := List.mem_map.mp hname
    exact hplain s hs
  simp only [dispatch, pathOf, String.toList_ofList, hnames, findSome_route hr hmatch, hallows,
    hextracts, ↓reduceIte, hraw]

/-- A URL that the server makes: its public base, without a slash at the end,
and a path below the root. -/
def Minted (config : Config) (url path : String) : Prop :=
  url = config.publicBase ++ path ∧ config.publicBase.toList.getLast? ≠ some '/' ∧
    path.toList.head? = some '/'

theorem minted_pathOf {url : String} {names : List String}
    (h : url.toList = config.publicBase.toList ++ '/' :: relative (names.map String.toList)) :
    Minted config url (pathOf names) := by
  refine ⟨?_, publicBase_unslashed config, ?_⟩
  · apply String.toList_inj.mp
    rw [h, String.toList_append, pathOf, String.toList_ofList]
  · rw [pathOf, String.toList_ofList]
    rfl

/-- A name without dots and slashes. -/
theorem plain_of_chars {name : List Char} (h : name ≠ [] ∧ '.' ∉ name ∧ '/' ∉ name) :
    PlainName name := by
  refine ⟨h.1, ?_, ?_, h.2.2⟩
  · rintro rfl
    exact h.2.1 (by simp)
  · rintro rfl
    exact h.2.1 (by simp)

/-- The URL of a fetch range leads to the xorb. -/
theorem fetch_url_routes {xorb : String} (hxorb : isHashHex xorb = true) (r : FetchRange) :
    ∃ path, Minted config (Reconstructions.wireRange config.publicBase xorb r).url path ∧
      dispatch .get path = .call .xorbsData [PREFIX_DEFAULT, xorb] := by
  refine ⟨pathOf ["v1", "xorbs", PREFIX_DEFAULT, xorb, "data"], ?_, ?_⟩
  · apply minted_pathOf
    simp [Reconstructions.wireRange, relative, List.intercalate, PREFIX_DEFAULT, toString]
  · have hdefault : decodeCapture PREFIX_DEFAULT.toList = some PREFIX_DEFAULT := by decide
    have hne : PREFIX_DEFAULT.toList ≠ [] := by decide
    refine dispatch_pathOf
      ⟨[.static "v1", .static "xorbs", .param, .param, .static "data"], onGet, .xorbsData⟩
      [PREFIX_DEFAULT.toList, xorb.toList] (by simp [router]) (by simp) ?_ ?_ rfl rfl ?_
    · simp only [List.forall_mem_cons, List.not_mem_nil, false_implies, implies_true, and_true]
      exact ⟨plain_of_chars (by decide), plain_of_chars (by decide), plain_of_chars (by decide),
        hashHex_plain hxorb, plain_of_chars (by decide)⟩
    · simp only [List.map_cons, List.map_nil, captures, ↓reduceIte, hne,
        (hashHex_plain hxorb).nonempty, Option.map_some]
    · simp only [List.mapM_cons, List.mapM_nil, hdefault, decodeCapture_hashHex hxorb]
      rfl

/-- The href of a download action leads to the object. -/
theorem download_href_routes {oid : String} (hoid : isHashHex oid = true) (auth : Option String) :
    ∃ path, Minted config (Lfs.downloadAction config oid auth).href path ∧
      dispatch .get path = .call .lfsDownload [oid] := by
  refine ⟨pathOf ["lfs", "objects", oid], ?_, ?_⟩
  · apply minted_pathOf
    simp [Lfs.downloadAction, relative, List.intercalate, toString]
  · refine dispatch_pathOf ⟨[.static "lfs", .static "objects", .param], onGet, .lfsDownload⟩
      [oid.toList] (by simp [router]) (by simp) ?_ ?_ rfl rfl ?_
    · simp only [List.forall_mem_cons, List.not_mem_nil, false_implies, implies_true, and_true]
      exact ⟨plain_of_chars (by decide), plain_of_chars (by decide), hashHex_plain hoid⟩
    · simp only [List.map_cons, List.map_nil, captures, ↓reduceIte, (hashHex_plain hoid).nonempty,
        Option.map_some]
    · simp only [List.mapM_cons, List.mapM_nil, decodeCapture_hashHex hoid]
      rfl

theorem upload_href_routes (auth : Option String) (now : UInt64) (sessionId : String) :
    ∃ path, Minted config (Lfs.uploadAction config auth now sessionId).href path ∧
      dispatch .get path = .call .lfsToken [] := by
  refine ⟨pathOf ["xet-token"], ?_, ?_⟩
  · apply minted_pathOf
    simp [Lfs.uploadAction, relative, List.intercalate, toString]
  · decide

/-- Where the action of that name leads, for that object. -/
def Leads (object : LfsBatchObject) (name path : String) : Prop :=
  name = "download" ∧ dispatch .get path = .call .lfsDownload [object.oid] ∨
    name = "upload" ∧ dispatch .get path = .call .lfsToken []

theorem single_action {name name' : String} {action action' : LfsAction}
    (h : ((Table.empty : Table String LfsAction).insertOrIgnore name action).get? name' =
      some action') : name' = name ∧ action' = action := by
  rcases Table.get?_insertOrIgnore_some h with hold | ⟨hname, haction, _⟩
  · cases hold
  · exact ⟨hname, haction⟩

theorem uploadObject_leads {offersXet : Bool} {auth : Option String} {env : Lfs.Ambient}
    {spec : LfsObjectSpec} {i : Nat} {name : String} {action : LfsAction}
    (h : (Lfs.uploadObject state offersXet auth env spec i).actions.get? name = some action) :
    ∃ path, Minted state.config action.href path ∧
      Leads (Lfs.uploadObject state offersXet auth env spec i) name path := by
  unfold Lfs.uploadObject at h ⊢
  split at h
  · cases h
  · split at h
    · cases h
    · obtain ⟨rfl, rfl⟩ := single_action h
      obtain ⟨path, hminted, hpath⟩ := upload_href_routes auth env.now (env.sessionId i)
      exact ⟨path, hminted, .inr ⟨rfl, hpath⟩⟩

theorem downloadObject_leads {auth : Option String} {spec : LfsObjectSpec}
    (hoid : isHashHex spec.oid = true) {name : String} {action : LfsAction}
    (h : (Lfs.downloadObject state auth spec).actions.get? name = some action) :
    ∃ path, Minted state.config action.href path ∧
      Leads (Lfs.downloadObject state auth spec) name path := by
  unfold Lfs.downloadObject at h ⊢
  split at h
  · obtain ⟨rfl, rfl⟩ := single_action h
    obtain ⟨path, hminted, hpath⟩ := download_href_routes hoid auth
    exact ⟨path, hminted, .inl ⟨rfl, hpath⟩⟩
  · cases h

/-- What is answered is a plan on the wire, and has passed its validator. -/
theorem get_wired {fileId : String} {range : Option Xorbs.HeaderValue}
    {response : QueryReconstructionResponse}
    (h : Reconstructions.get state fileId range = .ok response) :
    ∃ plan, response = Reconstructions.wireResponse state.config.publicBase plan ∧
      validateQueryReconstructionResponse response = .ok () := by
  unfold Reconstructions.get at h
  obtain ⟨_, h⟩ := check_eq_ok.mp h
  obtain ⟨spec, _, h⟩ := bind_eq_ok.mp h
  obtain ⟨file, _, h⟩ := bind_eq_ok.mp h
  obtain ⟨window, _, h⟩ := bind_eq_ok.mp h
  obtain ⟨plan, _, h⟩ := bind_eq_ok.mp h
  cases plan with
  | none => cases h
  | some plan =>
    obtain ⟨hvalid, h⟩ := check_eq_ok.mp h
    cases h
    refine ⟨plan, rfl, ?_⟩
    unfold checkResponse at hvalid
    split at hvalid
    · assumption
    · cases hvalid

theorem request_oids {request : LfsBatchRequest}
    (h : checkRequest (validateLfsBatchRequest request) = .ok ()) :
    ∀ spec ∈ request.objects, isHashHex spec.oid = true := by
  have hvalid := checkRequest_ok.mp h
  unfold validateLfsBatchRequest at hvalid
  obtain ⟨_, hvalid⟩ := check_eq_ok.mp hvalid
  obtain ⟨_, hvalid⟩ := check_eq_ok.mp hvalid
  intro spec hspec
  exact requireHashHex_ok.mp (forM_eq_ok.mp hvalid spec hspec)

/-- Every URL that a reconstruction or a batch hands out is below the public
base and leads back to the handler, and to the xorb or the object, it is for.
There is one route for a path at most. -/
theorem minted_urls_lead_back (state : AppState) :
    (∀ fileId range response, Reconstructions.get state fileId range = .ok response →
      ∀ row ∈ response.fetchInfo.rows, ∀ info ∈ row.2.entries, ∃ path,
        Minted state.config info.url path ∧
          dispatch .get path = .call .xorbsData [PREFIX_DEFAULT, row.1]) ∧
    (∀ request auth env response, Lfs.batch state request auth env = .ok response →
      ∀ object ∈ response.objects, ∀ name action, object.actions.get? name = some action →
        ∃ path, Minted state.config action.href path ∧ Leads object name path) ∧
    ∀ r ∈ router, ∀ q ∈ router, ∀ path, (captures r.pattern path).isSome = true →
      (captures q.pattern path).isSome = true → r = q := by
  refine ⟨?_, ?_, fun r hr q hq path => routes_unique hr hq⟩
  · intro fileId range response hget row hrow info hinfo
    obtain ⟨plan, rfl, hvalid⟩ := get_wired hget
    have hxorb : isHashHex row.1 = true := by
      unfold validateQueryReconstructionResponse at hvalid
      obtain ⟨_, hvalid⟩ := check_eq_ok.mp hvalid
      obtain ⟨hkeys, _⟩ := check_eq_ok.mp hvalid
      exact requireHashHexKeys_ok.mp hkeys row hrow
    obtain ⟨⟨xorb, ranges⟩, _, rfl⟩ := List.mem_map.mp hrow
    obtain ⟨r, _, rfl⟩ := List.mem_map.mp hinfo
    exact fetch_url_routes hxorb r
  · intro request auth env response hbatch object hobject name action haction
    obtain ⟨hrequest, hbatch⟩ := check_eq_ok.mp hbatch
    obtain ⟨response', hresponse, hbatch⟩ := bind_eq_ok.mp hbatch
    obtain ⟨_, hbatch⟩ := check_eq_ok.mp hbatch
    cases hbatch
    split at hresponse
    · cases hresponse
      obtain ⟨⟨spec, i⟩, _, rfl⟩ := List.mem_map.mp hobject
      exact uploadObject_leads haction
    · split at hresponse
      · cases hresponse
        obtain ⟨spec, hspec, rfl⟩ := List.mem_map.mp hobject
        exact downloadObject_leads (request_oids hrequest spec hspec) haction
      · cases hresponse

/-- A range of the file CDEA is fetched from the word. -/
theorem word_urls_lead_back : ∃ s response row info path,
    (Server.machine Server.sampleServer).Reachable Server.NoDrop s ∧
    Reconstructions.get s.state (Formats.hex Formats.wordFileHash) (some (some "bytes=1-2")) =
      .ok response ∧
    row ∈ response.fetchInfo.rows ∧ info ∈ row.2.entries ∧
    Minted s.state.config info.url path ∧
    dispatch .get path = .call .xorbsData [PREFIX_DEFAULT, row.1] := by
  obtain ⟨s, hreach, hp⟩ := Server.word_registered (fun s =>
    (Reconstructions.get s.state (Formats.hex Formats.wordFileHash)
      (some (some "bytes=1-2"))).toOption.any (fun response =>
        response.fetchInfo.rows.any (fun row => row.2.entries.any (fun _ => true))))
    (by decide +kernel)
  obtain ⟨response, hget, hrows⟩ := toOption_any hp
  obtain ⟨row, hrow, hentries⟩ := List.any_eq_true.mp hrows
  obtain ⟨info, hinfo, _⟩ := List.any_eq_true.mp hentries
  obtain ⟨path, hminted, hpath⟩ :=
    (minted_urls_lead_back s.state).1 _ _ response hget row hrow info hinfo
  exact ⟨s, response, row, info, path, hreach, hget, hrow, hinfo, hminted, hpath⟩

end Xetcas.Proofs.MintedUrls
