import LuckfoxPico.Clk.Rate
import LuckfoxPico.Html.Document
import LuckfoxPico.Html.References

/-!
# The status page (`status.cgi`)

The script reads strings from the system into shell variables and writes them into here-documents as
they are. The here-documents are one document, whose texts and attribute values hold the variables.
The branch that answers a change of the LED's trigger writes no page.
-/

namespace Status

open Str Html Fields

/-- What `iw dev <if> link` prints on a joined network: the access point's address, the SSID, and
lines about the connection. An SSID of printable characters is printed as it is. -/
structure Link where
  bssid : Str
  ssid : Str
  rest : List Str
  hex : ∀ c ∈ bssid, c.isDigit || c ∈ ['a', 'b', 'c', 'd', 'e', 'f', ':']
  printable : ∀ c ∈ ssid, ' ' ≤ c ∧ c ≤ '~'
  noSsid : ∀ l ∈ rest, ¬ "SSID".toList <:+: l

/-- The lines, for the name of the interface. -/
def Link.lines (link : Link) (wifiIf : Str) : List Str :=
  ("Connected to ".toList ++ link.bssid ++ " (on ".toList ++ wifiIf ++ ")".toList) ::
    ("\tSSID: ".toList ++ link.ssid) :: link.rest

/-- `awk '/SSID/ {print $2}'`. -/
def awkSsid (lines : List Str) : Str :=
  (lines.filter fun l => decide ("SSID".toList <:+: l)).flatMap fun l =>
    field Clk.awkBlank 1 l ++ ['\n']

/-- What the script reads from the system. -/
structure Values where
  hostname : Str
  model : Str
  uptime : Str
  kernel : Str
  nproc : Str
  load : Str
  temp : Str
  scalingCurFreq : Str
  /-- The rate of `armclk`, if the clock tree can be read. -/
  clkSummary : Option Str
  memTotal : Nat
  memTotal_pos : 0 < memTotal
  memAvail : Nat
  cmaTotal : Str
  cmaFree : Str
  ipAddr : Str
  macAddr : Str
  linkSpeed : Str
  linkState : Str
  wifiIf : Str
  wifiIp : Str
  /-- The network that is joined, if there is one. -/
  link : Option Link
  wifiState : Str
  rootDev : Str
  /-- `grep -q 'mmcblk0'` finds the root device. -/
  rootOnMmc : Bool
  hasBoot0 : Bool
  mmcSize : Str
  emmcLifeA : Str
  diskUsed : Str
  diskTotal : Str
  diskPct : Str
  hasRknpu : Bool
  /-- The three places for the version of the NPU's driver. -/
  npuVersion : Str
  npuVersionLine : Str
  npuVersionProc : Str
  hasLed : Bool
  ledTrig : Str
  ledBright : Str
  touchDev : Str
  touchName : Str
  displayMode : Str
  displayStatus : Str
  fbSize : Str

/-! ## The shell variables -/

/-- An arithmetic expansion's result. -/
def decimal (n : Int) : Str :=
  if n < 0 then '-' :: Nat.toDigits 10 n.natAbs else Nat.toDigits 10 n.natAbs

/-- `${v:-d}`. -/
def orDefault (v d : Str) : Str := if v = [] then d else v

/-- `${v#p}` for a text `p`. -/
def dropStart (p v : Str) : Str := if p.isPrefixOf v then v.drop p.length else v

def Values.cpuFreq (v : Values) : Str :=
  if v.scalingCurFreq = [] then v.clkSummary.getD [] else v.scalingCurFreq

def Values.memUsed (v : Values) : Int := v.memTotal - v.memAvail

def Values.memPct (v : Values) : Int := (v.memUsed * 100).tdiv v.memTotal

def Values.wifiSsid (v : Values) : Str :=
  match v.link with
  | none => []
  | some link => substitution (awkSsid (link.lines v.wifiIf))

def Values.bootMedia (v : Values) : Str :=
  if v.rootOnMmc then if v.hasBoot0 then "eMMC".toList else "SD card".toList else "unknown".toList

def Values.emmcSize (v : Values) : Str := if v.rootOnMmc then v.mmcSize else "n/a".toList

def Values.npuPresent (v : Values) : Str := if v.hasRknpu then "yes".toList else "no".toList

def Values.npuDrv (v : Values) : Str :=
  orDefault (orDefault v.npuVersion v.npuVersionLine) v.npuVersionProc

/-- `btn_class`. -/
def Values.btnClass (v : Values) (trigger : String) : String :=
  if v.ledTrig = trigger.toList then "btn active" else "btn"

/-! ## The here-documents -/

def div : Str := "div".toList

def span : Str := "span".toList

def na : Str := "n/a".toList

def cls (v : String) : Str × Str := ("class".toList, v.toList)

/-- The SSID in the page. -/
def Values.shownSsid (v : Values) : Str := orDefault v.wifiSsid na

/-- A line of a card. -/
def stat (label : String) (value : Str) : List Node :=
  [.text "\n    ".toList, .start div [cls "stat"], .start span [cls "label"], .text label.toList,
    .close span, .start span [cls "value"], .text value, .close span, .close div]

/-- A bar that is filled in part. -/
def bar (pct : Str) : List Node :=
  [.text "\n    ".toList, .start div [cls "bar"],
    .start div [cls "bar-fill", ("style".toList, "width:".toList ++ pct ++ ['%'])], .close div,
    .close div]

def card (title : Str) (body : List Node) : List Node :=
  [.text "\n  ".toList, .start div [cls "card"], .text "\n    ".toList, .start "h2".toList [],
    .text title, .close "h2".toList] ++ body ++ [.text "\n  ".toList, .close div]

/-- The text of the `style` element. -/
def css : Str :=
  '\n' :: ([
    "  * \x7b margin: 0; padding: 0; box-sizing: border-box; \x7d".toList,
    "  body \x7b font-family: -apple-system, sans-serif; ".toList ++
      "background: #0d1117; color: #c9d1d9; padding: 2rem; \x7d".toList,
    "  h1 \x7b color: #58a6ff; margin-bottom: 0.5rem; \x7d".toList,
    "  .subtitle \x7b color: #8b949e; margin-bottom: 2rem; \x7d".toList,
    "  .grid \x7b display: grid; ".toList ++
      "grid-template-columns: repeat(auto-fit, minmax(280px, 1fr)); ".toList ++
      "gap: 1rem; \x7d".toList,
    "  .card \x7b background: #161b22; border: 1px solid #30363d; ".toList ++
      "border-radius: 8px; padding: 1.2rem; \x7d".toList,
    "  .card h2 \x7b color: #58a6ff; font-size: 0.85rem; ".toList ++
      "text-transform: uppercase; letter-spacing: 0.05em; ".toList ++
      "margin-bottom: 0.8rem; \x7d".toList,
    "  .stat \x7b display: flex; justify-content: space-between; ".toList ++
      "padding: 0.4rem 0; border-bottom: 1px solid #21262d; \x7d".toList,
    "  .stat:last-child \x7b border-bottom: none; \x7d".toList,
    "  .label \x7b color: #8b949e; \x7d".toList,
    "  .value \x7b color: #f0f6fc; font-family: monospace; \x7d".toList,
    "  .bar \x7b background: #21262d; border-radius: 4px; height: 8px; ".toList ++
      "margin-top: 0.5rem; \x7d".toList,
    "  .bar-fill \x7b background: #58a6ff; border-radius: 4px; ".toList ++
      "height: 100%; \x7d".toList,
    "  .btn \x7b display: inline-block; padding: 0.3rem 0.8rem; ".toList ++
      "border: 1px solid #30363d; border-radius: 6px; ".toList ++
      "background: #21262d; color: #c9d1d9; text-decoration: none; ".toList ++
      "font-size: 0.8rem; margin-right: 0.3rem; \x7d".toList,
    "  .btn:hover \x7b background: #30363d; \x7d".toList,
    "  .btn.active \x7b background: #1f6feb; border-color: #1f6feb; ".toList ++
      "color: #fff; \x7d".toList] : List Str).flatMap (· ++ ['\n'])

def head (v : Values) : List Node :=
  [.doctype, .text ['\n'], .start "html".toList [], .text ['\n'], .start "head".toList [],
    .text ['\n'], .start "meta".toList [("charset".toList, "utf-8".toList)], .text ['\n'],
    .start "meta".toList [("name".toList, "viewport".toList),
      ("content".toList, "width=device-width, initial-scale=1".toList)], .text ['\n'],
    .start "meta".toList [("http-equiv".toList, "refresh".toList), ("content".toList, "5".toList)],
    .text ['\n'], .raw "title".toList v.hostname, .text ['\n'], .raw "style".toList css, .text ['\n'],
    .close "head".toList, .text ['\n'], .start "body".toList [], .text ['\n'],
    .start "h1".toList [], .text v.hostname, .close "h1".toList, .text ['\n'],
    .start "p".toList [cls "subtitle"], .text v.model, .close "p".toList, .text ['\n'],
    .start div [cls "grid"]]

def systemCard (v : Values) : List Node :=
  card "System".toList
    (stat "Uptime" v.uptime ++ stat "Kernel" v.kernel ++ stat "CPUs" v.nproc ++
      stat "CPU Freq" (orDefault v.cpuFreq ['?'] ++ " MHz".toList) ++
      stat "Load (1/5/15 min)" v.load ++ stat "Temperature" (orDefault v.temp na ++ " &deg;C".toList))

def memoryCard (v : Values) : List Node :=
  card "Memory".toList
    (stat "Used / Total"
        (decimal v.memUsed ++ " / ".toList ++ decimal v.memTotal ++ " MB".toList) ++
      bar (decimal v.memPct) ++ stat "CMA Total" (orDefault v.cmaTotal na ++ " MB".toList) ++
      stat "CMA Free" (orDefault v.cmaFree na ++ " MB".toList))

def networkCard (v : Values) : List Node :=
  card "Network (end0)".toList
    (stat "State" (orDefault v.linkState na) ++ stat "IP Address" (orDefault v.ipAddr "down".toList) ++
      stat "MAC" (orDefault v.macAddr na) ++
      stat "Link Speed" (orDefault v.linkSpeed ['?'] ++ " Mbps".toList))

def wifiCard (v : Values) : List Node :=
  if v.wifiIf = [] then [] else
    card ("WiFi (".toList ++ v.wifiIf ++ [')'])
      (stat "State" (orDefault v.wifiState na) ++
        stat "IP Address" (orDefault v.wifiIp "down".toList) ++
        stat "SSID" v.shownSsid)

def storageCard (v : Values) : List Node :=
  card "Storage".toList
    (stat "Boot Media" v.bootMedia ++
      stat "Device" (v.rootDev ++ " (".toList ++ v.emmcSize ++ [')']) ++
      stat "Rootfs Used" (v.diskUsed ++ " / ".toList ++ v.diskTotal ++ " MB".toList) ++
      bar v.diskPct ++ stat "eMMC Wear" (orDefault v.emmcLifeA na))

def displayCard (v : Values) : List Node :=
  card "Display".toList
    (stat "Connector" ("DPI-1 ".toList ++ orDefault v.displayStatus na) ++
      stat "Mode" (orDefault v.displayMode na) ++ stat "Framebuffer" (orDefault v.fbSize na))

def npuCard (v : Values) : List Node :=
  card "NPU".toList (stat "/dev/rknpu" v.npuPresent ++ stat "Driver" (orDefault v.npuDrv na))

def button (v : Values) (trigger label : String) : List Node :=
  [.text "\n      ".toList,
    .start "a".toList [cls (v.btnClass trigger),
      ("href".toList, "/status.cgi?led=".toList ++ trigger.toList)],
    .text label.toList, .close "a".toList]

def ledCard (v : Values) : List Node :=
  if v.hasLed then
    card "LED (work, GPIO3_C6)".toList
      (stat "Trigger" (orDefault v.ledTrig ['?']) ++ stat "Brightness" (orDefault v.ledBright ['?']) ++
        [.text "\n    ".toList, .start div [cls "stat", ("style".toList, "border:none".toList)]] ++
        button v "heartbeat" "Heartbeat" ++ button v "default-on" "On" ++ button v "none" "Off" ++
        [.text "\n    ".toList, .close div])
  else []

def touchCard (v : Values) : List Node :=
  if v.touchDev = [] then [] else
    card "Touch (GT911)".toList
      (stat "Device" ("/dev/input/".toList ++ dropStart "event/".toList v.touchDev) ++
        stat "Name" v.touchName)

def foot : List Node :=
  [.text ['\n'], .close div, .text ['\n'], .close "body".toList, .text ['\n'], .close "html".toList]

/-- The cards that are shown. -/
def document (v : Values) : List Node :=
  head v ++ systemCard v ++ memoryCard v ++ networkCard v ++ wifiCard v ++ storageCard v ++
    displayCard v ++ npuCard v ++ ledCard v ++ touchCard v ++ foot

/-- The page that the script writes. -/
def page (v : Values) : Str := render (document v) ++ ['\n']

/-! ## Faithful pages -/

/-- The page has the tags and attributes of the template, each value is the text that it is, and a
browser shows the SSID of the network. -/
structure Faithful (refs : References) (v : Values) : Prop where
  markup : tokenize (page v) = tokens (document v) ++ [.char '\n']
  ssid : v.wifiIf ≠ [] → ∀ link, v.link = some link → refs.decode v.shownSsid = link.ssid

/-- A value and, if it is empty, the values that stand in for it. -/
def fallbacks (s : Str) (others : List Str) : List Str := s :: if s = [] then others else []

/-- The values that are shown as texts, card by card; the SSID is not one of them. -/
def Values.shown (v : Values) : List Str :=
  [v.hostname, v.model] ++
  ([v.uptime, v.kernel, v.nproc] ++ fallbacks v.scalingCurFreq v.clkSummary.toList ++
    [v.load, v.temp]) ++
  [v.cmaTotal, v.cmaFree] ++
  [v.linkState, v.ipAddr, v.macAddr, v.linkSpeed] ++
  (if v.wifiIf = [] then [] else [v.wifiIf, v.wifiState, v.wifiIp]) ++
  ([v.rootDev] ++ (if v.rootOnMmc then [v.mmcSize] else []) ++
    [v.diskUsed, v.diskTotal, v.emmcLifeA]) ++
  [v.displayStatus, v.displayMode, v.fbSize] ++
  fallbacks v.npuVersion (fallbacks v.npuVersionLine [v.npuVersionProc]) ++
  (if v.hasLed then [v.ledTrig, v.ledBright] else []) ++
  (if v.touchDev = [] then [] else [v.touchDev, v.touchName])

/-- awk and the browser leave the SSID as it is. -/
structure Plain (refs : References) (v : Values) (link : Link) : Prop where
  ssid_ne : link.ssid ≠ []
  noBlank : ' ' ∉ link.ssid
  noReference : refs.NoReference link.ssid
  interface : ¬ "SSID".toList <:+: v.wifiIf

/-- The values are harmless where they stand. -/
structure Harmless (refs : References) (v : Values) : Prop where
  texts : ∀ s ∈ v.shown, Inert s
  diskPct : '"' ∉ v.diskPct
  ssid : v.wifiIf ≠ [] → ∀ link, v.link = some link → Inert link.ssid ∧ Plain refs v link

end Status
